import LuaLint.Proofs.Scope.Hoisting
import LuaLint.Proofs.Scope.Occurrences

/-!
# References that write

A reference that writes its name stands where the name is declared with a value, where it is a
target of an assignment or the name of a function, or at the base of something longer that is
assigned to or that names a function. What the reference records tells these apart but for one
thing: its indexes end at the first that is not static.

Main statements: `Expr.isFieldOf_or_dynamic`, `Parser.writtenBy`,
`Parser.exists_hoisted_of_bareWrite`.
-/

namespace LuaLint

open List

/-! ## Static links -/

namespace Expr

/-- Whether a link is a field by its name, or an element by a string. -/
def isStatic : Expr → Bool
  | .field _ _ => true
  | .element _ _ key _ =>
    match key.strip with
    | .string _ _ _ => true
    | _ => false
  | _ => false

/-- An expression is a field of a name: `x.y` or `x["y"]`. -/
def IsFieldOf (e : Expr) (i : Ident) : Prop := e.base = .name i ∧ e.links = [e] ∧ e.isStatic = true

end Expr

/-- Indexes are recorded up to the first that is not static. -/
theorem length_staticIndexing (ls : List Expr) :
    (staticIndexing ls).length = (ls.takeWhile Expr.isStatic).length := by
  induction ls with
  | nil => rfl
  | cons l ls ih =>
    cases l with
    | field object n =>
      rw [staticIndexing, takeWhile_cons_of_pos rfl, length_cons, ih, length_cons]
    | element object lbrack key rbrack =>
      cases hkey : key.strip <;> simp [staticIndexing, Expr.isStatic, hkey, ih]
    | _ => rfl

namespace Expr

variable {e : Expr} {i : Ident}

theorem links_ne_nil (hbase : e.base = .name i) (hname : e.asName? = none) : e.links ≠ [] := by
  cases e with
  | name j => cases hname
  | field object n => simp [links]
  | element object lbrack key rbrack => simp [links]
  | call callee method form args => simp [links]
  | _ => cases hbase

theorem getLast?_links {l : Expr} (hl : e.links.getLast? = some l) : l = e := by
  cases e with
  | field object n => simpa [links, eq_comm] using hl
  | element object lbrack key rbrack => simpa [links, eq_comm] using hl
  | call callee method form args => simpa [links, eq_comm] using hl
  | _ => cases hl

/-- One recorded index means a field, or a dynamic index behind it. -/
theorem isFieldOf_or_dynamic (hbase : e.base = .name i) (hname : e.asName? = none)
    (hone : (staticIndexing e.links).length = 1) : e.IsFieldOf i ∨
      ∃ l l' rest, e.links = l :: l' :: rest ∧ l.isStatic = true ∧ l'.isStatic = false := by
  rw [length_staticIndexing] at hone
  obtain ⟨l, ls, hlinks⟩ := exists_cons_of_ne_nil (links_ne_nil hbase hname)
  have hstatic : l.isStatic = true := by
    by_contra hdynamic
    simp [hlinks, hdynamic] at hone
  cases ls with
  | nil =>
    obtain rfl : l = e := getLast?_links (by simp [hlinks])
    exact .inl ⟨hbase, hlinks, hstatic⟩
  | cons l' rest =>
    refine .inr ⟨l, l', rest, hlinks, hstatic, ?_⟩
    rw [Bool.eq_false_iff]
    intro hstatic'
    simp [hlinks, hstatic, hstatic'] at hone

end Expr

/-! ## The constructs behind writes -/

/-- The construct behind a reference that writes its name. -/
inductive Reference.WrittenBy (c : Chunk) (ref : Reference) : Prop where
  /-- The name takes a value where it is declared. -/
  | declared {id : Nat} {v : Variable} : ref.resolved = some id → c.resolve.vars[id]? = some v →
      v.hoisted = false → v.identifier = ref.span → ref.indexing = [] → WrittenBy c ref
  | target {targets values : List Expr} {equal : Nat} {i : Ident} :
      .stmt (.assign targets equal values) ∈ c.nodes → .name i ∈ targets → ref.span = i.span →
      ref.write = some .assign → ref.indexing = [] → WrittenBy c ref
  | functionName {pos : Nat} {i : Ident} {body : FuncBody} :
      .stmt (.function pos ⟨i, [], none⟩ body) ∈ c.nodes → ref.span = i.span → ref.read = true →
      ref.write = some .assign → ref.indexing = [] → WrittenBy c ref
  /-- The name is at the base of a chain that is assigned to. -/
  | chain {targets values : List Expr} {equal : Nat} {e : Expr} {i : Ident} :
      .stmt (.assign targets equal values) ∈ c.nodes → e ∈ targets → e.asName? = none →
      e.base = .name i → e.hasCall = false → ref.span = i.span → ref.read = true →
      ref.indexing = staticIndexing e.links → WrittenBy c ref
  | fieldName {pos : Nat} {n : FuncName} {body : FuncBody} :
      .stmt (.function pos n body) ∈ c.nodes → ref.span = n.base.span → ref.read = true →
      ref.write = some .extend → ref.indexing.length = (n.fields ++ n.method.toList).length →
      WrittenBy c ref

theorem Expr.bindings_subset_bindingsOf {env : Env} {e : Expr} {es : List Expr} (he : e ∈ es) :
    e.bindings env ⊆ Expr.bindingsOf env es := by
  induction es with
  | nil => cases he
  | cons first es ih =>
    rw [Expr.bindingsOf]
    rcases mem_cons.mp he with rfl | he
    · exact subset_append_left _ _
    · exact subset_append_of_subset_right _ (ih he)

namespace Parser

variable {source : Bytes} {chunk : Chunk} {ref : Reference}

variable (h : parse source = .ok chunk)
include h

/-- A declaration with a value has a variable, to which the value is written. -/
theorem exists_variable_of_declare (href : ref ∈ chunk.resolve.references) {d : Declaration}
    (hd : .declare d ∈ chunk.events) (hself : d.isSelf = false) (hspan : d.identifier = ref.span) :
    ∃ (id : Nat) (v : Variable), ref.resolved = some id ∧ chunk.resolve.vars[id]? = some v ∧
      v.hoisted = false ∧ v.identifier = ref.span := by
  have hbinds := (binds_iff h href _).mpr rfl
  have hdecl := use_of_declaration h hd hself hbinds (congrArg Span.start hspan.symm)
  obtain ⟨id, v, hid, hv, hplace⟩ := ScopeGraph.declarationOf?_eq_some.mp hdecl
  obtain ⟨hhoisted, hident⟩ := Variable.declaration?_eq_some.mp hplace
  exact ⟨id, v, hid, hv, hhoisted, hident.trans hspan⟩

/-- Every write comes from one of the five places. -/
theorem writtenBy (href : ref ∈ chunk.resolve.references) (hwrite : ref.write ≠ none) :
    ref.WrittenBy chunk := by
  obtain ⟨before, e, after, hsplit, hu, -⟩ := Chunk.exists_event_of_reference href
  have he : e ∈ chunk.events := by simp [hsplit]
  have harises := chunk.arises he
  have hown : ∀ {s : Stmt}, .stmt s ∈ chunk.nodes →
      (∃ d, .declare d ∈ s.events ∧ d.identifier = ref.span ∧ d.isSelf = false) →
      ref.indexing = [] → ref.WrittenBy chunk := by
    rintro s hs ⟨d, hd, hspan, hself⟩ hindexing
    obtain ⟨id, v, hid, hv, hhoisted, hident⟩ :=
      exists_variable_of_declare h href (chunk.events_stmt_subset hs hd) hself hspan
    exact .declared hid hv hhoisted hident hindexing
  have hfields : ∀ {u : Use}, some u = some ref.use → ref.span = u.span ∧ ref.read = u.usage.read ∧
      ref.write = u.usage.write ∧ ref.indexing = u.usage.indexing := by
    rintro u hu
    cases hu
    exact ⟨rfl, rfl, rfl, rfl⟩
  cases harises with
  | read _ hnone _ => exact absurd ((hfields hu).2.2.1.trans hnone) hwrite
  | initialised hs hmem =>
    obtain ⟨hspan, -, -, hindexing⟩ := hfields hu
    exact hown hs (hspan ▸ Stmt.exists_declare_of_mem_zip hmem) hindexing
  | loopVariable hs hmem =>
    obtain ⟨hspan, -, -, hindexing⟩ := hfields hu
    exact hown hs (hspan ▸ Stmt.exists_declare_of_loopVariable hmem) hindexing
  | @chain targets values equal e i value hs hmem hname hbase =>
    obtain ⟨hspan, hread, hassign, hindexing⟩ := hfields hu
    rw [Expr.usage] at hread hassign hindexing
    -- A call in between makes the write one to something else.
    by_cases hcall : e.hasCall = true
    · exact absurd (hassign.trans (by rw [if_pos hcall])) hwrite
    · rw [if_neg hcall] at hread hindexing
      exact .chain hs hmem hname hbase (by simpa using hcall) hspan hread hindexing
  | target hs hmem =>
    obtain ⟨hspan, -, hassign, hindexing⟩ := hfields hu
    exact .target hs hmem hspan hassign hindexing
  | functionName hs =>
    obtain ⟨hspan, hread, hassign, hindexing⟩ := hfields hu
    exact .functionName hs hspan hread hassign hindexing
  | fieldName hs =>
    obtain ⟨hspan, hread, hextend, hindexing⟩ := hfields hu
    exact .fieldName hs hspan hread hextend (by simp [hindexing])
  | enter kind span => cases hu
  | leave => cases hu
  | call hs hmem => cases hu
  | declared hvalue => cases hu
  | initial hs hmem hident hvalue => cases hu

/-- A write to a name without a variable makes a global. -/
theorem exists_hoisted_of_bareWrite {i : Ident} (hi : i ∈ chunk.bareWrites)
    (href : ref ∈ chunk.resolve.references) (hspan : ref.span = i.span)
    (hnone : ref.resolved = none) :
    ∃ v ∈ chunk.resolve.vars, v.hoisted = true ∧ v.name = ref.name ∧ v.identifier = ref.span := by
  obtain ⟨u, hu, -, huspan⟩ := Chunk.exists_assign_of_mem_bareWrites hi
  obtain ⟨before, after, hsplit, huse, -, hresolved⟩ :=
    use_unique h href hu rfl (congrArg Span.start (hspan.trans huspan.symm))
  subst huse
  have hlookup : (Resolver.start.run before).lookup? ref.name = none := by
    by_contra hsome
    exact hsome ((hresolved (.inl hsome)).symm.trans hnone)
  obtain ⟨v, hv, hhoisted, hident, hname, -⟩ := exists_hoisted_of_assign hsplit hlookup
  exact ⟨v, Array.mem_of_getElem? hv, hhoisted, hname, hident⟩

/-- What a statement assigns to refers to a declaration from before the names of the statement. -/
theorem start_lt_of_bareWrite {s : Stmt} (hs : s ∈ chunk.stmts) {i : Ident}
    (hi : i ∈ s.bareWrites) {place : Span} (hbinds : chunk.Binds i.span (some place)) :
    ∀ m ∈ s.mentions, place.start < m.span.start := by
  obtain ⟨env, horderly⟩ := orderly h
  obtain ⟨env, hprecedes, hsub⟩ :=
    horderly.hosts _ (mem_singleton_self _) s (Chunk.mem_stmts.mp hs)
  have hlook : ⟨i.span, env i.name⟩ ∈ s.bindings env := by
    rcases Stmt.cases_of_mem_bareWrites hi with ⟨targets, equal, values, rfl, hmem⟩ |
      ⟨pos, body, rfl⟩
    · exact mem_append_left _ (Expr.bindings_subset_bindingsOf hmem (mem_singleton_self _))
    · exact mem_cons_self
  have hplace := binds_unique h hbinds (hsub hlook)
  exact fun m hm => hprecedes m hm i.name place hplace.symm

end Parser

end LuaLint
