import LuaLint.Lint.NameUse
import LuaLint.Proofs.Scope.Records

/-!
# Uses of names and references

The checks against the standard library go through the uses of names, which are whole chains; name
resolution goes through the names one by one. Both see the same names: the base of a chain is
counted once, with the chain or with the first call in it, and every other name for a value or a
target is the base of a chain of its own.

Main statements: `Expr.spans_nameUses`, `WellFormed.counted`, `Parser.nameUses_references`.
-/

namespace LuaLint

open NameRole Mention Phrase NameUse

open scoped List

variable {m : Mention} {span : Span} {ref : Reference}

/-! ## The name of a use -/

def Expr.calmName? (e : Expr) : Option Ident := if e.hasCall then none else e.base.asName?

/-- The name that is checked with a use: the one at the base of the chain, if the chain begins with
a name. A target behind a call is no use of its own, since the call is. -/
def NameUse.name? : NameUse → Option Ident
  | .value e => e.base.asName?
  | .target e => e.calmName?
  | .call c => c.expr.base.asName?

def NameUse.spans (us : List NameUse) : List Span := us.filterMap fun u => u.name?.map Ident.span

def NameUse.offset? (u : NameUse) : Option Nat := u.name?.map Ident.pos

theorem NameUse.map_start_spans (us : List NameUse) :
    (spans us).map Span.start = us.filterMap offset? := by
  rw [spans, List.map_filterMap]
  refine List.filterMap_congr fun u _ => ?_
  rw [offset?, Option.map_map]
  rfl

@[simp] theorem NameUse.spans_nil : spans [] = [] := rfl

@[simp] theorem NameUse.spans_append (us us' : List NameUse) :
    spans (us ++ us') = spans us ++ spans us' := List.filterMap_append

namespace Expr

theorem hasCall_field (object : Expr) (n : Ident) : (field object n).hasCall = object.hasCall := by
  simp [hasCall, links, isCall]

theorem hasCall_element (object : Expr) (lbrack : Nat) (key : Expr) (rbrack : Nat) :
    (element object lbrack key rbrack).hasCall = object.hasCall := by
  simp [hasCall, links, isCall]

theorem hasCall_call (callee : Expr) (method : Option Ident) (form : CallForm) (args : List Expr) :
    (call callee method form args).hasCall = true := by
  simp [hasCall, links, isCall]

/-- An expression that is not inside of a longer chain adds the name at its base, unless a call
counts it. -/
theorem spans_nameUses (e : Expr) : spans (e.nameUses false) =
      e.calmName?.toList.map Ident.span ++ spans (e.nameUses true) := by
  -- A chain that is used as a whole: what the links hold is the same inside and outside.
  have hwhole : ∀ (e : Expr) (us : List NameUse),
      spans ((if false || e.hasCall then [] else [.value e]) ++ us) =
        e.calmName?.toList.map Ident.span ++ spans us := by
    intro e us
    rw [spans_append, calmName?]
    cases e.hasCall with
    | true => rfl
    | false => cases hbase : e.base.asName? <;> simp [spans, name?, hbase]
  cases e with
  | name i => rfl
  | field object n => simpa [nameUses] using hwhole (.field object n) (object.nameUses true)
  | element object lbrack key rbrack =>
    simpa [nameUses] using
      hwhole (.element object lbrack key rbrack) (object.nameUses true ++ key.nameUses false)
  | call callee method form args =>
    rw [calmName?, hasCall_call]
    simp [nameUses]
  | nil pos => rfl
  | bool pos value => rfl
  | number pos raw => rfl
  | string pos raw value => rfl
  | vararg pos => rfl
  | function pos body => rfl
  | table lbrace fields rbrace => rfl
  | binary op opPos left right => rfl
  | unary op opPos operand => rfl
  | paren lparen inner rparen => rfl

theorem spans_field (object : Expr) (n : Ident) :
    spans ((field object n).nameUses false) = spans (object.nameUses false) := by
  rw [spans_nameUses, spans_nameUses object, calmName?, hasCall_field, calmName?, base]
  simp [nameUses]

theorem spans_element (object : Expr) (lbrack : Nat) (key : Expr) (rbrack : Nat) :
    spans ((element object lbrack key rbrack).nameUses false) =
      spans (object.nameUses false) ++ spans (key.nameUses false) := by
  rw [spans_nameUses, spans_nameUses object, calmName?, hasCall_element, calmName?, base]
  simp [nameUses]

theorem spans_call (callee : Expr) (method : Option Ident) (form : CallForm) (args : List Expr) :
    spans ((call callee method form args).nameUses false) =
      spans (callee.nameUses false) ++ spans (allNameUses args) := by
  rw [spans_nameUses callee, calmName?]
  simp only [nameUses, Call.isFirst, spans_append]
  by_cases hcall : callee.hasCall = true
  · simp [hcall]
  · cases hbase : callee.base.asName? <;>
      simp [spans, name?, Call.expr, base, hcall, hbase]

theorem spans_targets (targets : List Expr) :
    (spans (targets.map .target ++ targetNameUses targets)).Perm
      (spans (allNameUses targets)) := by
  induction targets with
  | nil => exact .refl _
  | cons e rest ih =>
    rw [spans_append] at ih
    have hhead : spans [.target e] = e.calmName?.toList.map Ident.span := by
      cases hname : e.calmName? <;> simp [spans, name?, hname]
    have hsplit : spans ((e :: rest).map .target ++ targetNameUses (e :: rest)) =
        spans [.target e] ++ (spans (rest.map .target) ++
          (spans (e.nameUses true) ++ spans (targetNameUses rest))) := by
      rw [List.map_cons, targetNameUses, ← List.singleton_append]
      simp only [spans_append, List.append_assoc]
    rw [hsplit, hhead, allNameUses, spans_append, spans_nameUses e, List.append_assoc]
    refine List.Perm.append_left _ ?_
    -- The uses inside of the first target come before the other targets.
    calc spans (rest.map .target) ++
          (spans (e.nameUses true) ++ spans (targetNameUses rest))
      _ ~ spans (e.nameUses true) ++
          (spans (rest.map .target) ++ spans (targetNameUses rest)) := by
        simpa using List.Perm.append_right _ List.perm_append_comm
      _ ~ spans (e.nameUses true) ++ spans (allNameUses rest) := ih.append_left _

end Expr

/-! ## Names that are checked -/

/-- The name stands for a value or a target. -/
def NameRole.isPlain : NameRole → Bool
  | .value | .target => true
  | _ => false

/-- The name is to be checked: it stands for a value or a target, and it is not `...`. -/
def Mention.isChecked (m : Mention) : Bool := m.role.isPlain && m.name != varargName

def Mention.checked? (m : Mention) : Option Span := if m.isChecked then some m.span else none

theorem Mention.checked?_eq_some :
    m.checked? = some span ↔ m.isChecked = true ∧ m.span = span := by
  cases hchecked : m.isChecked <;> simp [checked?, hchecked]

theorem Mention.checked?_eq_none (h : m.use? = none) : m.checked? = none := by
  cases hrole : m.role <;> simp_all [use?, checked?, isChecked, isUse, isPlain]

/-- The names of some uses are those among some names that are to be checked. -/
def Counted (us : List NameUse) (ms : List Mention) : Prop :=
  (NameUse.spans us).Perm (ms.filterMap Mention.checked?)

namespace Counted

variable {us us' : List NameUse} {ms ms' : List Mention} {role : NameRole}

theorem nil : Counted [] [] := List.Perm.nil

theorem append (h : Counted us ms) (h' : Counted us' ms') : Counted (us ++ us') (ms ++ ms') := by
  rw [Counted, spans_append, List.filterMap_append]
  exact List.Perm.append h h'

theorem unchecked (h : ∀ m ∈ ms, m.role.isPlain = false) : Counted [] ms := by
  have hnone : ms.filterMap checked? = [] :=
    List.filterMap_eq_nil_iff.mpr fun m hm => by simp [checked?, isChecked, h m hm]
  rw [Counted, hnone]
  exact .nil

theorem unchecked_map (hrole : role.isPlain = false) (is : List Ident) :
    Counted [] (is.map (Ident.mention role)) := by
  apply unchecked
  intro m hm
  obtain ⟨i, -, rfl⟩ := List.mem_map.mp hm
  exact hrole

theorem after (h : Counted us ms) (h' : Counted [] ms') : Counted us (ms ++ ms') := by
  simpa using h.append h'

theorem before (h : Counted us ms) (h' : Counted [] ms') : Counted us (ms' ++ ms) := h'.append h

theorem name {i : Ident} (hname : i.name ≠ varargName) (hrole : role.isPlain = true) :
    Counted ((Expr.name i).nameUses false) [i.mention role] := by
  have hspan : (i.mention role).checked? = some i.span := by
    simp [checked?, isChecked, Ident.mention, hname, hrole]
  rw [Counted, List.filterMap_cons_some hspan]
  exact .refl _

theorem dots (pos : Nat) : Counted [] [Ident.mention .value ⟨pos, varargName⟩] := .refl _

theorem localNames (names : List LocalName) (values : Nat) :
    Counted [] (LocalName.mentionsOf names values) := by
  have hname : ∀ (n : LocalName) {role : NameRole}, role.isPlain = false →
      Counted [] (n.mentions role) := by
    intro n role hrole
    refine unchecked fun m hm => ?_
    rcases List.mem_cons.mp hm with rfl | hm
    · exact hrole
    · obtain ⟨a, -, rfl⟩ := List.mem_map.mp hm
      rfl
  induction names generalizing values with
  | nil => exact .nil
  | cons n names ih =>
    cases values with
    | zero => exact (hname n rfl).append (ih 0)
    | succ values => exact (hname n rfl).append (ih values)

theorem parameters (params : List Ident) (vararg : Option Nat) :
    Counted [] (FuncBody.parameterMentions params vararg) := by
  refine (unchecked_map rfl params).after ?_
  cases vararg with
  | none => exact .nil
  | some pos => exact unchecked_map rfl [⟨pos, varargName⟩]

theorem funcName (n : FuncName) : Counted [] n.mentions :=
  ((unchecked_map rfl [n.base]).after (unchecked_map rfl n.fields)).after (unchecked_map rfl _)

end Counted

/-! ## Phrases -/

def Phrase.nameUses : Phrase → List NameUse
  | .expr e => e.nameUses false
  | .exprs es => Expr.allNameUses es
  | .args _ es => Expr.allNameUses es
  | .field f => TableField.nameUses [f]
  | .fields fs => TableField.nameUses fs
  | .body b => b.nameUses
  | .stmt s => s.nameUses
  | .stmts ss => Stmt.allNameUses ss
  | .branches arms otherwise _ => ElseIf.nameUses arms ++ otherwise.nameUses

theorem TableField.nameUses_cons (f : TableField) (fs : List TableField) :
    TableField.nameUses (f :: fs) = TableField.nameUses [f] ++ TableField.nameUses fs := by
  cases f <;> simp [TableField.nameUses]

/-- Each name of a phrase is counted once, by induction on the phrase. -/
theorem WellFormed.counted {lawful : Word → Prop} {p : Phrase} (h : WellFormed lawful p)
    (hlawful : ∀ text, lawful (.name text) → text ≠ varargName) {base : NameRole}
    (hbase : base.isPlain = true) : Counted p.nameUses (p.mentions base) := by
  have hvalue : value.isPlain = true := rfl
  induction h generalizing base with
  | nil => exact .nil
  | bool => exact .nil
  | number _ => exact .nil
  | string _ => exact .nil
  | vararg => exact .dots _
  | name hname => exact .name (hlawful _ hname) hbase
  | functionExpr _ ih => exact ih hbase
  | table _ ih => exact ih hbase
  | binary _ _ _ _ ihl ihr => exact (ihl hvalue).append (ihr hvalue)
  | unary _ _ ih => exact ih hvalue
  | paren _ ih => exact ih hvalue
  -- A longer chain takes the place of the chain that it extends.
  | @fieldAccess object i _ _ _ ih =>
    rw [Counted, nameUses, Expr.spans_field]
    exact (ih hbase).after (.unchecked_map rfl [i])
  | element _ _ _ ih ihkey =>
    rw [Counted, nameUses, Expr.spans_element, ← spans_append]
    exact (ih hbase).append (ihkey hvalue)
  | @call callee method form es _ _ _ _ ih ihargs =>
    rw [Counted, nameUses, Expr.spans_call, ← spans_append]
    exact ((ih hbase).after (.unchecked_map rfl method.toList)).append (ihargs hvalue)
  | noExprs => exact .nil
  | consExpr _ _ ih ihrest => exact (ih hbase).append (ihrest hbase)
  | argList _ ih => exact ih hvalue
  | bareArg _ _ ih =>
    simpa [nameUses, mentions, Expr.allNameUses, Expr.mentionsOf] using ih hvalue
  | positional _ ih =>
    simpa [nameUses, mentions, TableField.nameUses, TableField.mentions] using
      ih hvalue
  | @named i _ _ _ ih =>
    simpa [nameUses, mentions, TableField.nameUses, TableField.mentions] using
      (ih hvalue).before (.unchecked_map rfl [i])
  | keyed _ _ ihkey ih =>
    simpa [nameUses, mentions, TableField.nameUses, TableField.mentions] using
      (ihkey hvalue).append (ih hvalue)
  | noFields => exact .nil
  | consField _ _ ih ihrest =>
    rw [nameUses, mentions, TableField.nameUses_cons, TableField.mentions_cons]
    exact (ih hbase).append (ihrest hbase)
  | body _ _ ih => exact (ih hbase).before (.parameters _ _)
  | localAssign _ _ _ ih => exact (ih hvalue).before (.localNames _ _)
  | assign _ _ _ _ _ ihtargets ihvalues =>
    -- A target may be counted by the call in it; the spans are the same in another order.
    have htarget : target.isPlain = true := rfl
    rw [Counted, nameUses, Stmt.nameUses, spans_append]
    refine (List.Perm.append_right _ (Expr.spans_targets _)).trans ?_
    rw [← spans_append]
    exact (ihtargets htarget).append (ihvalues hvalue)
  | callStmt _ ih => exact ih hvalue
  | doBlock _ ih => exact ih hbase
  | whileLoop _ _ ihcond ih => exact (ihcond hvalue).append (ih hbase)
  | repeatLoop _ _ ih ihcond => exact (ih hbase).append (ihcond hvalue)
  | ifThen _ _ _ ihcond ih iharms =>
    rw [nameUses, Stmt.nameUses, List.append_assoc]
    exact ((ihcond hvalue).append (ih hbase)).append (iharms hbase)
  | @numericFor _ _ _ var first limit step _ _ _ _ _ _ ihfirst ihlimit ihstep ih =>
    have hvar : Counted [] ([var].map (Ident.mention .loopVariable)) := .unchecked_map rfl [var]
    have hheader := ((ihfirst hvalue).append (ihlimit hvalue)).before hvar
    cases step with
    | none =>
      rw [nameUses, Stmt.nameUses, List.append_nil]
      exact hheader.append (ih hbase)
    | some step =>
      have hstep := ihstep hvalue
      simp only [nameUses, mentions, Option.toList, Expr.allNameUses,
        Expr.mentionsOf, List.append_nil] at hstep
      exact (hheader.append hstep).append (ih hbase)
  | genericFor _ _ _ _ _ ihexprs ih =>
    exact ((ihexprs hvalue).before (.unchecked_map rfl _)).append (ih hbase)
  | functionStmt _ _ ih => exact (ih hbase).before (.funcName _)
  | localFunction _ _ ih => exact (ih hbase).before (.unchecked_map rfl [_])
  | ret _ ih => exact ih hvalue
  | brk => exact .nil
  | goto _ => exact .unchecked_map rfl [_]
  | label _ => exact .unchecked_map rfl [_]
  | noStmts => exact .nil
  | consStmt _ _ _ ih ihrest => exact (ih hbase).append (ihrest hbase)
  | noBranch => exact .nil
  | elseBranch _ ih => exact ih hbase
  | elseIfBranch _ _ _ ihcond ih iharms =>
    rw [nameUses, mentions, ElseIf.nameUses, ElseIf.mentions, List.append_assoc,
      List.append_assoc _ (ElseIf.mentions _)]
    exact ((ihcond hvalue).append (ih hbase)).append (iharms hbase)

/-! ## References -/

/-- The name is that of a function statement, a `local` name or the variable of a loop. -/
def NameRole.isIntroduced : NameRole → Bool
  | .functionName | .initialised | .declared | .loopVariable => true
  | _ => false

/-- The reference is to be checked: it is not `...`, and the name that makes it is none that a
statement introduces. -/
def Chunk.isChecked (c : Chunk) (ref : Reference) : Bool :=
  ref.name != varargName && !c.mentions.any fun m => m.role.isIntroduced && m.span == ref.span

theorem NameRole.isPlain_eq {role : NameRole} (h : role.isUse = true) :
    role.isPlain = !role.isIntroduced := by
  cases role <;> simp_all [isUse, isPlain, isIntroduced]

namespace Parser

variable {source : Bytes} {chunk : Chunk}

theorem exists_mention_of_reference (chunk : Chunk) (href : ref ∈ chunk.resolve.references) :
    ∃ role, role.isUse = true ∧ ⟨role, ref.name, ref.span⟩ ∈ chunk.mentions := by
  obtain ⟨e, he, huse⟩ := Chunk.exists_use_of_reference href
  exact (ScopeEvent.namedIn_iff_of_use? huse).mp (chunk.named_events.names e he)

section

variable (h : parse source = .ok chunk)
include h

theorem isChecked_eq (hm : m ∈ chunk.mentions) (hname : m.name = ref.name)
    (hspan : m.span = ref.span) (huse : m.role.isUse = true) :
    chunk.isChecked ref = m.isChecked := by
  have hany : (chunk.mentions.any fun m => m.role.isIntroduced && m.span == ref.span) =
      m.role.isIntroduced := by
    rw [Bool.eq_iff_iff, List.any_eq_true]
    constructor
    · rintro ⟨m', hm', hand⟩
      obtain ⟨hrole, hspan'⟩ := Bool.and_eq_true_iff.mp hand
      rwa [mention_unique h hm hm' (by rw [hspan, beq_iff_eq.mp hspan'])]
    · intro hrole
      exact ⟨m, hm, by simp [hrole, hspan]⟩
  rw [Chunk.isChecked, isChecked, hany, isPlain_eq huse, hname, Bool.and_comm]

theorem mem_checked_iff (hm : m ∈ chunk.mentions) :
    m.span ∈ chunk.mentions.filterMap Mention.checked? ↔ m.isChecked = true := by
  rw [List.mem_filterMap]
  constructor
  · rintro ⟨m', hm', hchecked⟩
    obtain ⟨hchecked, hspan'⟩ := checked?_eq_some.mp hchecked
    rwa [mention_unique h hm hm' (by rw [hspan'])]
  · intro hchecked
    exact ⟨m, hm, checked?_eq_some.mpr ⟨hchecked, rfl⟩⟩

theorem spans_checked :
    ((chunk.resolve.references.toList.filter chunk.isChecked).map Reference.span).Perm
      (chunk.mentions.filterMap Mention.checked?) := by
  -- References and names that are used stand at the same places; both are filtered by the place.
  let keep : Span → Bool := fun span => span ∈ chunk.mentions.filterMap checked?
  have hrefs : (chunk.resolve.references.toList.filter chunk.isChecked).map Reference.span =
      (chunk.resolve.references.toList.map Reference.span).filter keep := by
    rw [List.filter_map]
    refine congrArg _ (List.filter_congr fun ref href => ?_)
    obtain ⟨role, huse, hm⟩ := exists_mention_of_reference chunk (Array.mem_toList_iff.mp href)
    rw [isChecked_eq h hm rfl rfl huse, Bool.eq_iff_iff, ← mem_checked_iff h hm]
    simp [keep]
  have hmentions : (chunk.mentions.filterMap use?).filter keep =
      chunk.mentions.filterMap checked? := by
    rw [List.filter_filterMap]
    refine List.filterMap_congr fun m hm => ?_
    cases huse : m.use? with
    | none => exact (checked?_eq_none huse).symm
    | some span =>
      obtain ⟨-, rfl⟩ := use?_eq_some.mp huse
      have hkeep : keep m.span = m.isChecked := by
        rw [Bool.eq_iff_iff, ← mem_checked_iff h hm]
        simp [keep]
      rw [Option.filter_some, hkeep, checked?]
  have huses : (chunk.resolve.references.toList.map Reference.span).Perm
      (chunk.mentions.filterMap use?) := by
    have hbindings := chunk.bindings_resolve.map Binding.use
    rw [ScopeGraph.bindings, List.map_map] at hbindings
    exact hbindings.trans chunk.uses_bindings.places
  rw [hrefs, ← hmentions]
  exact huses.filter keep

theorem counted_nameUses : Counted chunk.nameUses chunk.mentions := by
  have hformed := (chunk_of_parse h).1.wellFormed
  have hvalue : value.isPlain = true := rfl
  have hcounted := hformed.counted (fun _ hname => hname.ne_varargName) hvalue
  cases chunk with
  | mk block size tokens comments =>
    cases block with
    | mk pos stmts => exact hcounted

end

/-- The uses of names in a parsed chunk are its references, apart from `...` and from the names that
statements introduce. So each name of them is used once. -/
theorem nameUses_references (h : parse source = .ok chunk) :
    (chunk.nameUses.filterMap NameUse.offset?).Perm
        ((chunk.resolve.references.toList.filter chunk.isChecked).map fun ref => ref.span.start) ∧
      ∀ ref ∈ chunk.resolve.references, chunk.isChecked ref = true →
        (chunk.nameUses.filterMap NameUse.offset?).count ref.span.start = 1 := by
  have hperm : (chunk.nameUses.filterMap NameUse.offset?).Perm
      ((chunk.resolve.references.toList.filter chunk.isChecked).map fun ref => ref.span.start) := by
    have hspans := ((counted_nameUses h).trans (spans_checked h).symm).map Span.start
    rw [NameUse.map_start_spans, List.map_map] at hspans
    exact hspans
  refine ⟨hperm, fun ref href hchecked => ?_⟩
  have hnodup : (chunk.resolve.references.toList.map fun ref => ref.span.start).Nodup :=
    Resolver.starts_run chunk.events ▸ nodup_places h true
  have hkept : (chunk.resolve.references.toList.filter chunk.isChecked).Sublist _ :=
    List.filter_sublist
  rw [hperm.count_eq]
  refine List.count_eq_one_of_mem (hnodup.sublist (hkept.map _)) (List.mem_map.mpr ⟨ref, ?_, rfl⟩)
  exact List.mem_filter.mpr ⟨Array.mem_toList_iff.mpr href, hchecked⟩

/-- A source with a call in a table, in a target and after a method name, and with every kind of
reference that is not checked. -/
def usingSource : Bytes := Bytes.ofString
  "local t = \x7bf(x)\x7d for i = 1, #t do a[i], g(i).d = h:m(...) end function k.n() return t end"

theorem nameUses_references_calls : ∃ chunk, parse usingSource = .ok chunk ∧
    chunk.nameUses.filterMap NameUse.offset? = [11, 13, 29, 34, 36, 40, 42, 49, 84] ∧
    [11, 13, 29, 34, 36, 40, 42, 49, 84].Perm
      ((chunk.resolve.references.toList.filter chunk.isChecked).map fun ref => ref.span.start) := by
  exact exists_ok_and ⟨_, rfl, rfl⟩ fun _ hparse hoffsets =>
    hoffsets ▸ (nameUses_references hparse).1

end Parser

end LuaLint
