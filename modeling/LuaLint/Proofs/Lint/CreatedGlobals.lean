import LuaLint.Proofs.Lint.Labels
import LuaLint.Proofs.Scope.Writes

/-!
# Findings about globals that are created

The check for unscoped variables finds the writes that create globals by what references record.
This is each global of the scope graph once, at the name that creates it. It is also a write to an
element of an undeclared table by a key that is not static: its recorded indexes end before the key,
so that it looks like a write to the name itself.

Main statements: `LintInput.Parsed.created_perm`, `LintInput.Parsed.createdGlobals_perm`.
-/

namespace LuaLint

open List LuaLint.Parser

/-! ## Elements -/

/-- The name at the base of a chain without calls whose first link is not static. -/
def Expr.elementBase? (e : Expr) : Option Ident :=
  match e.base with
  | .name i => if !e.hasCall && e.links.head?.any (fun l => !l.isStatic) then some i else none
  | _ => none

/-- The names at the bases of such chains among the targets of a statement. -/
def Stmt.elementWrites : Stmt → List Ident
  | .assign targets _ _ => targets.filterMap Expr.elementBase?
  | _ => []

/-- The names whose elements the statements of a chunk write by dynamic keys. -/
def Chunk.elementWrites (c : Chunk) : List Ident := c.stmts.flatMap Stmt.elementWrites

/-- A chain records no index exactly if a dynamic key follows the name. -/
theorem Expr.elementBase?_eq_some_iff {e : Expr} {i : Ident} : e.elementBase? = some i ↔
    e.base = .name i ∧ e.hasCall = false ∧ e.asName? = none ∧ staticIndexing e.links = [] := by
  constructor
  · intro h
    unfold elementBase? at h
    split at h
    · next j hbase =>
      split at h
      · next hfirst =>
        cases h
        obtain ⟨hcall, hfirst⟩ := Bool.and_eq_true_iff.mp hfirst
        cases hlinks : e.links with
        | nil => simp [hlinks] at hfirst
        | cons l rest =>
          -- With a computed index first, no part of the chain is static.
          have hdynamic : l.isStatic = false := by simpa [hlinks] using hfirst
          have hnone : (staticIndexing (l :: rest)).length = 0 := by
            rw [length_staticIndexing, takeWhile_cons_of_neg (by simp [hdynamic]), length_nil]
          refine ⟨hbase, by simpa using hcall, ?_, eq_nil_of_length_eq_zero hnone⟩
          cases e with
          | name j => cases hlinks
          | _ => rfl
      · cases h
    · cases h
  · rintro ⟨hbase, hcall, hname, hindexing⟩
    obtain ⟨first, rest, hlinks⟩ := exists_cons_of_ne_nil (links_ne_nil hbase hname)
    have hnone := congrArg length hindexing
    rw [length_staticIndexing, hlinks] at hnone
    have hdynamic : first.isStatic = false := by
      rw [Bool.eq_false_iff]
      intro hstatic
      simp [hstatic] at hnone
    simp [elementBase?, hbase, hcall, hlinks, hdynamic]

theorem Chunk.usage_of_assign {c : Chunk} {u : Use} (hu : .assign u ∈ c.events) :
    u.usage.write = some .assign ∧ u.usage.indexing = [] := by
  cases c.arises hu with
  | target _ _ => exact ⟨rfl, rfl⟩
  | functionName _ => exact ⟨rfl, rfl⟩

theorem Chunk.exists_use_of_elementWrite {c : Chunk} {i : Ident} (hi : i ∈ c.elementWrites) :
    ∃ u, .use u ∈ c.events ∧ u.span = i.span ∧ u.usage.write = some .assign ∧
      u.usage.indexing = [] := by
  obtain ⟨s, hs, hi⟩ := mem_flatMap.mp hi
  cases s with
  | assign targets equal values =>
    obtain ⟨e, he, hbase⟩ := mem_filterMap.mp hi
    obtain ⟨hbase, hcall, hname, hindexing⟩ := Expr.elementBase?_eq_some_iff.mp hbase
    obtain ⟨value, hvalue⟩ := Stmt.exists_targetUse_subset he
    have huse : .use ⟨i.name, i.span, e.usage (some .assign) value⟩ ∈ e.targetUse value := by
      cases e with
      | name j => cases hname
      | _ => simp [Expr.targetUse, Expr.baseUse, hbase]
    refine ⟨_, c.events_stmt_subset (mem_stmts.mp hs) (hvalue huse), rfl, ?_, ?_⟩
    · simp [Expr.usage, hcall]
    · simp [Expr.usage, hcall, hindexing]
  | _ => cases hi

/-! ## References -/

namespace LintInput

variable {source : Bytes} {input : LintInput} {ref : Reference}

/-- The name refers to nothing and stands at the base of a write to an element. -/
def straysFrom (input : LintInput) (ref : Reference) : Bool :=
  ref.resolved.isNone && (input.chunk.elementWrites.map Ident.span).contains ref.span

theorem straysFrom_iff : input.straysFrom ref = true ↔
    ref.resolved = none ∧ ∃ i ∈ input.chunk.elementWrites, i.span = ref.span := by
  rw [straysFrom, Bool.and_eq_true, Option.isNone_iff_eq_none, contains_iff_mem, mem_map]

namespace Parsed

variable (h : input.Parsed source)
include h

theorem variableOf?_eq_none (href : ref ∈ input.graph.references)
    (hnone : input.graph.variableOf? ref = none) : ref.resolved = none := by
  cases hid : ref.resolved with
  | none => rfl
  | some id =>
    rw [h.graph] at href hnone
    obtain ⟨v, hv⟩ := exists_variable href hid
    simp [ScopeGraph.variableOf?, hid, hv] at hnone

/-- What creates a global by what it records stands where a global does, or at the base of a write
to an element of something undeclared. -/
theorem created_cases (href : ref ∈ input.graph.references)
    (hcreates : input.createsGlobal ref = true) :
    (∃ v ∈ input.graph.vars, v.hoisted = true ∧ v.name = ref.name ∧ v.identifier = ref.span) ∨
      input.straysFrom ref = true := by
  simp only [createsGlobal, Bool.and_eq_true, beq_iff_eq, List.isEmpty_iff] at hcreates
  obtain ⟨⟨hassign, hindexing⟩, hmatch⟩ := hcreates
  split at hmatch
  · next v hv =>
    obtain ⟨id, hid, hv⟩ := Option.bind_eq_some_iff.mp hv
    rw [Bool.and_eq_true, beq_iff_eq] at hmatch
    have hlinked : input.graph.Linked := h.graph ▸ input.chunk.linked_resolve
    obtain ⟨w, hw, hname, -⟩ := hlinked.resolved ref href id hid
    obtain rfl : v = w := Option.some.inj (hv.symm.trans hw)
    exact .inl ⟨v, Array.mem_of_getElem? hv, hmatch.1, hname, hmatch.2⟩
  · next hnone =>
    have hresolved := h.variableOf?_eq_none href hnone
    rw [h.graph] at href ⊢
    -- The reference is one of those that write, and it is not made by a declaration.
    cases writtenBy h.parse href (by simp [hassign]) with
    | declared hid _ _ _ _ => simp [hresolved] at hid
    | @target targets values equal i hs hi hspan _ _ =>
      refine .inl (exists_hoisted_of_bareWrite h.parse ?_ href hspan hresolved)
      exact mem_flatMap.mpr ⟨_, Chunk.mem_stmts.mpr hs, Stmt.mem_bareWrites_assign.mpr hi⟩
    | @functionName pos i body hs hspan _ _ _ =>
      refine .inl (exists_hoisted_of_bareWrite h.parse ?_ href hspan hresolved)
      exact mem_flatMap.mpr ⟨_, Chunk.mem_stmts.mpr hs, mem_singleton_self i⟩
    | @chain targets values equal e i hs he hname hbase hcall hspan _ hlinks =>
      refine .inr (straysFrom_iff.mpr ⟨hresolved, i, ?_, hspan.symm⟩)
      have helement := Expr.elementBase?_eq_some_iff.mpr
        ⟨hbase, hcall, hname, hlinks.symm.trans hindexing⟩
      exact mem_flatMap.mpr ⟨_, Chunk.mem_stmts.mpr hs, mem_filterMap.mpr ⟨e, he, helement⟩⟩
    | fieldName _ _ _ hextend _ => simp [hextend] at hassign

theorem exists_created_of_hoisted {v : Variable} (hv : v ∈ input.graph.vars)
    (hhoisted : v.hoisted = true) : ∃ ref ∈ input.graph.references, input.createsGlobal ref = true ∧
      ref.name = v.name ∧ ref.span = v.identifier := by
  rw [h.graph] at hv
  obtain ⟨k, hk⟩ := Array.mem_iff_getElem?.mp hv
  obtain ⟨before, u, after, hsplit, hsize, hlookup, hname, hident⟩ :=
    exists_assign_of_hoisted hk hhoisted
  obtain ⟨ref, href, huse, hresolved⟩ := exists_reference_of_hoisting hsplit hlookup
  subst huse
  have hplain : ref.write = some .assign ∧ ref.indexing = [] :=
    Chunk.usage_of_assign (c := input.chunk) (u := ref.use) (by simp [hsplit])
  refine ⟨ref, h.graph ▸ href, ?_, hname.symm, hident.symm⟩
  simp only [createsGlobal, hplain, beq_self_eq_true, isEmpty_nil, Bool.and_self, Bool.true_and]
  split
  · next w hw =>
    obtain ⟨id, hid, hw⟩ := Option.bind_eq_some_iff.mp hw
    rcases hresolved with hnone | hself
    · simp [hnone] at hid
    · obtain rfl : k = id := by rw [← hsize]; exact Option.some.inj (hself.symm.trans hid)
      rw [h.graph, hk] at hw
      cases hw
      simp [hhoisted, hident, Reference.use]
  · rfl

theorem createsGlobal_of_straysFrom (href : ref ∈ input.graph.references)
    (hstrays : input.straysFrom ref = true) : input.createsGlobal ref = true := by
  obtain ⟨hnone, i, hi, hspan⟩ := straysFrom_iff.mp hstrays
  obtain ⟨u, hu, huspan, hassign, hindexing⟩ := Chunk.exists_use_of_elementWrite hi
  rw [h.graph] at href
  obtain ⟨-, -, -, rfl, -⟩ :=
    use_unique h.parse href hu rfl (congrArg Span.start (hspan.symm.trans huspan.symm))
  have hassign : ref.write = some .assign := hassign
  have hindexing : ref.indexing = [] := hindexing
  simp [createsGlobal, hassign, hindexing, ScopeGraph.variableOf?, hnone]

theorem identifier_ne_of_straysFrom (hstrays : input.straysFrom ref = true) {v : Variable}
    (hv : v ∈ input.graph.vars) (hhoisted : v.hoisted = true) : v.identifier ≠ ref.span := by
  intro hident
  obtain ⟨-, i, hi, hspan⟩ := straysFrom_iff.mp hstrays
  obtain ⟨u, hu, huspan, -, -⟩ := Chunk.exists_use_of_elementWrite hi
  rw [h.graph] at hv
  obtain ⟨k, hk⟩ := Array.mem_iff_getElem?.mp hv
  obtain ⟨before, u', after, hsplit, -, -, -, hident'⟩ := exists_assign_of_hoisted hk hhoisted
  obtain ⟨before', after', hsplit'⟩ := append_of_mem hu
  -- The name would be used by two events, of different kinds.
  have hplace : (ScopeEvent.assign u').place? true = some u.span.start := by
    rw [huspan, hspan, ← hident, hident']
    rfl
  cases (split_unique h.parse hsplit hsplit' hplace rfl).2

theorem nodup_hoisted : ((input.graph.vars.toList.filter Variable.hoisted).map
    Variable.identifier).Nodup := by
  rw [h.graph, List.Nodup, pairwise_map, pairwise_filter, pairwise_iff_getElem]
  intro j k hj hk hlt hhoisted hhoisted' hsame
  have hvj : input.chunk.resolve.vars[j]? = some _ :=
    (Array.getElem?_toList).symm.trans (getElem?_eq_getElem hj)
  have hvk : input.chunk.resolve.vars[k]? = some _ :=
    (Array.getElem?_toList).symm.trans (getElem?_eq_getElem hk)
  obtain ⟨before, u, after, hsplit, hsize, -, -, hident⟩ := exists_assign_of_hoisted hvj hhoisted
  have hsize' := (hoisted_unique h.parse hsplit hvk hhoisted' (hsame.symm.trans hident)).1
  omega

/-- The writes that create globals by what they record: one for each global, where it stands, and
the writes to elements of what is undeclared. -/
theorem created_perm : ((input.graph.references.toList.filter input.createsGlobal).map
      fun ref => (ref.name, ref.span)).Perm
    ((input.graph.vars.toList.filter Variable.hoisted).map (fun v => (v.name, v.identifier)) ++
      (input.graph.references.toList.filter input.straysFrom).map fun ref =>
      (ref.name, ref.span)) := by
  -- Both sides have no duplicates, since references stand at different places.
  have hspans : (input.graph.references.toList.map Reference.span).Nodup := by
    rw [h.graph]
    exact nodup_spans h.parse
  have hpairs : ∀ p : Reference → Bool, ((input.graph.references.toList.filter p).map
      fun ref => (ref.name, ref.span)).Nodup := by
    intro p
    refine List.Nodup.of_map Prod.snd ?_
    rw [map_map]
    exact hspans.sublist (filter_sublist.map _)
  have hglobals : ((input.graph.vars.toList.filter Variable.hoisted).map
      fun v => (v.name, v.identifier)).Nodup := by
    refine List.Nodup.of_map Prod.snd ?_
    rw [map_map]
    exact h.nodup_hoisted
  refine (perm_ext_iff_of_nodup (hpairs _) (nodup_append.mpr
    ⟨hglobals, hpairs _, ?_⟩)).mpr ?_
  · intro x hx y hy hxy
    simp only [mem_map, mem_filter, Array.mem_toList_iff] at hx hy
    obtain ⟨v, ⟨hv, hhoisted⟩, rfl⟩ := hx
    obtain ⟨ref, ⟨-, hstrays⟩, rfl⟩ := hy
    exact h.identifier_ne_of_straysFrom hstrays hv hhoisted (Prod.mk.inj hxy).2
  · intro pair
    simp only [mem_append, mem_map, mem_filter, Array.mem_toList_iff]
    -- So it is enough that they have the same members.
    constructor
    · rintro ⟨ref, ⟨href, hcreates⟩, rfl⟩
      rcases h.created_cases href hcreates with ⟨v, hv, hhoisted, hname, hident⟩ | hstrays
      · exact .inl ⟨v, ⟨hv, hhoisted⟩, Prod.ext hname hident⟩
      · exact .inr ⟨ref, ⟨href, hstrays⟩, rfl⟩
    · rintro (⟨v, ⟨hv, hhoisted⟩, rfl⟩ | ⟨ref, ⟨href, hstrays⟩, rfl⟩)
      · obtain ⟨ref, href, hcreates, hname, hspan⟩ := h.exists_created_of_hoisted hv hhoisted
        exact ⟨ref, ⟨href, hcreates⟩, Prod.ext hname hspan⟩
      · exact ⟨ref, ⟨href, h.createsGlobal_of_straysFrom href hstrays⟩, rfl⟩

end Parsed

/-! ## Findings -/

/-- The finding about a name that creates a global, unless the name is exempt. -/
def globalFinding? (input : LintInput) (ignore : Option Pattern) (name : Bytes) (place : Span) :
    Option Finding :=
  if matchesName ignore name || input.library.hasGlobal name then none
  else some (.about place
    ("`" ++ name ++ "` is not declared locally, and will be available in every scope"))

theorem createdGlobals_eq (ignore : Option Pattern) : input.createdGlobals ignore =
    (input.graph.references.toList.filter input.createsGlobal).filterMap
      fun ref => input.globalFinding? ignore ref.name ref.span := by
  rw [filterMap_filter, createdGlobals]
  refine filterMap_congr fun ref _ => ?_
  cases hcreates : input.createsGlobal ref <;> simp [globalFinding?]

/-- The check finds each global of the scope graph once, at the name that creates it, unless the
library has the name or a pattern exempts it. Besides, it finds the writes to elements of undeclared
tables by keys that are not static, which create none. -/
theorem Parsed.createdGlobals_perm (h : input.Parsed source) (ignore : Option Pattern) :
    (input.createdGlobals ignore).Perm
      ((input.graph.vars.toList.filter Variable.hoisted).filterMap
          (fun v => input.globalFinding? ignore v.name v.identifier) ++
        (input.graph.references.toList.filter input.straysFrom).filterMap
          fun ref => input.globalFinding? ignore ref.name ref.span) := by
  have hperm := h.created_perm.filterMap fun pair => input.globalFinding? ignore pair.1 pair.2
  rw [List.filterMap_append, List.filterMap_map, List.filterMap_map, List.filterMap_map] at hperm
  rw [createdGlobals_eq]
  exact hperm

def printing : Library := { Library.empty with globals := [("print", .ofShape .any)] }

/-- Globals that are created twice, in a function and by a function, a field that is written, and a
name of the library. -/
def globalsSource : Bytes := "a = 1 a = 2 function b() c = a end t.x = 1 t[1] = 2 print = 3"

theorem Parsed.createdGlobals_perm_mixed :
    ∃ chunk, Parser.parse globalsSource = .ok chunk ∧
      (chunk.resolve.vars.toList.filter Variable.hoisted).map (fun v => v.identifier.start) =
        [0, 21, 25, 52] ∧
      ((ofChunk globalsSource chunk printing).createdGlobals none).map (fun f => f.primary.start) =
        [0, 21, 25, 43] ∧
      ((ofChunk globalsSource chunk printing).createdGlobals none).Perm
        ((chunk.resolve.vars.toList.filter Variable.hoisted).filterMap (fun v =>
            (ofChunk globalsSource chunk printing).globalFinding? none v.name v.identifier) ++
          (chunk.resolve.references.toList.filter
              (ofChunk globalsSource chunk printing).straysFrom).filterMap
            fun ref =>
              (ofChunk globalsSource chunk printing).globalFinding? none ref.name ref.span) := by
  exact exists_ok_and_and (by decide +kernel) fun _ hparse _ =>
    createdGlobals_perm ⟨hparse, rfl⟩ none

/-- A write to an element is found where no global is created. -/
theorem createdGlobals_element : ∃ chunk, Parser.parse "t[1] = 2" = .ok chunk ∧
    chunk.resolve.vars.toList.filter Variable.hoisted = [] ∧
    (ofChunk "t[1] = 2" chunk Library.empty).createdGlobals none = [.about ⟨0, 1⟩
      "`t` is not declared locally, and will be available in every scope"] := by
  exact exists_ok (by decide +kernel)

end LintInput

end LuaLint
