import LuaLint.Proofs.Lint.Labels
import LuaLint.Proofs.Scope.Writes

/-!
# Findings about numbers of arguments

The check for numbers of arguments walks over a chunk and keeps one parameter list for each
variable. A declaration sets it, and an assignment, which the walk meets later, merges into it. What
is kept in the end takes just the calls that one of the functions takes, so that a call is found if
it passes more arguments than any of them has parameters for.

Main statements: `ParamCount.accepts_merge`, `ParamTable.Sums.learn`,
`LintInput.Parsed.surplusArguments_sound`.
-/

namespace LuaLint

open List Stmt

variable {n id : Nat} {p : ParamCount} {i : Ident} {d : Declaration} {v : Variable} {t : ParamTable}
  {form : CallForm} {args : List Expr}

/-! ## Parameter lists -/

namespace ParamCount

/-- A merged list takes what either list takes. -/
theorem accepts_merge (p q : ParamCount) (n : Nat) :
    (p.merge q).accepts n = (p.accepts n || q.accepts n) := by
  cases p with
  | fixed m =>
    cases q with
    | fixed m' =>
      rw [Bool.eq_iff_iff]
      simp only [merge, accepts, Bool.or_eq_true, decide_eq_true_eq]
      omega
    | _ => simp [merge, accepts]
  | _ => cases q <;> simp [merge, accepts]

theorem accepts_ofBody {body : FuncBody} :
    (ofBody body).accepts n = false ↔ body.hasVararg = false ∧ body.params.length < n := by
  unfold ofBody
  cases body.hasVararg with
  | false => simp [accepts]
  | true => cases body.params.isEmpty <;> simp [accepts]

end ParamCount

/-! ## Tables -/

/-- What is learned about a variable: the parameter list of a function. -/
structure Lesson where
  /-- Whether the function is given to the variable where it is declared. -/
  declares : Bool
  id : Option Nat
  params : ParamCount

namespace ParamTable

def learn (t : ParamTable) (l : Lesson) : ParamTable :=
  if l.declares then t.set l.id l.params else t.join l.id l.params

theorem get?_cons (t : ParamTable) (id id' : Nat) (p : ParamCount) :
    get? ((id', p) :: t) id = if id = id' then some p else t.get? id := by
  rw [get?, lookup_cons]
  by_cases hid : id = id'
  · simp [hid]
  · rw [beq_eq_false_iff_ne.mpr hid, if_neg hid]
    rfl

/-- A table holds what has been learned: the parameter list of each variable takes the calls that
one of its functions takes. -/
structure Sums (t : ParamTable) (ls : List Lesson) : Prop where
  missing : ∀ id, t.get? id = none → ∀ l ∈ ls, l.id ≠ some id
  found : ∀ id p, t.get? id = some p → (∃ l ∈ ls, l.id = some id) ∧
    ∀ n, p.accepts n = true ↔ ∃ l ∈ ls, l.id = some id ∧ l.params.accepts n = true

namespace Sums

variable {t : ParamTable} {ls : List Lesson} {l : Lesson}

theorem nil : Sums [] [] := by
  refine ⟨?_, ?_⟩ <;> simp [get?]

theorem skip (h : Sums t ls) (hid : l.id = none) : Sums t (ls ++ [l]) := by
  constructor
  · intro id hget l' hl'
    rcases mem_append.mp hl' with hl' | hl'
    · exact h.missing id hget l' hl'
    · rw [mem_singleton.mp hl', hid]
      simp
  · intro id p hget
    obtain ⟨⟨l', hl', hid'⟩, haccepts⟩ := h.found id p hget
    refine ⟨⟨l', mem_append_left _ hl', hid'⟩, fun n => ?_⟩
    simp [haccepts n, or_and_right, exists_or, hid]

theorem add (h : Sums t ls) (hid : l.id = some id)
    (hp : ∀ n, p.accepts n = true ↔ (∃ l' ∈ ls, l'.id = some id ∧ l'.params.accepts n = true) ∨
      l.params.accepts n = true) : Sums ((id, p) :: t) (ls ++ [l]) := by
  constructor
  · intro id' hget l' hl'
    rw [get?_cons] at hget
    split at hget
    · cases hget
    · next hne =>
      rcases mem_append.mp hl' with hl' | hl'
      · exact h.missing id' hget l' hl'
      · rw [mem_singleton.mp hl', hid]
        exact fun heq => hne (Option.some.inj heq).symm
  · intro id' p' hget
    rw [get?_cons] at hget
    split at hget
    · next heq =>
      obtain rfl := Option.some.inj hget
      subst heq
      refine ⟨⟨l, by simp, hid⟩, fun n => ?_⟩
      simp [hp n, or_and_right, exists_or, hid]
    · next hne =>
      obtain ⟨⟨l', hl', hid'⟩, haccepts⟩ := h.found id' p' hget
      refine ⟨⟨l', mem_append_left _ hl', hid'⟩, fun n => ?_⟩
      have hother : ¬ id = id' := fun heq => hne heq.symm
      simp [haccepts n, or_and_right, exists_or, hid, hother]

/-- A lesson is added to what the table holds. One that declares is the first of its variable. -/
theorem learn (h : Sums t ls) (hfirst : l.declares = true → l.id ≠ none → ∀ l' ∈ ls, l'.id ≠ l.id) :
    Sums (t.learn l) (ls ++ [l]) := by
  cases hid : l.id with
  | none =>
    have hsame : t.learn l = t := by
      rw [ParamTable.learn, hid]
      split <;> rfl
    rw [hsame]
    exact h.skip hid
  | some id =>
    unfold ParamTable.learn
    rw [hid]
    split
    · next hdeclares =>
      -- Nothing is known of the variable yet.
      refine h.add hid fun n => ?_
      have hnone : ∀ l' ∈ ls, l'.id ≠ some id := hid ▸ hfirst hdeclares (by simp [hid])
      simp +contextual [hnone]
    · refine h.add hid fun n => ?_
      cases hget : t.get? id with
      | none =>
        have hnone := h.missing id hget
        simp +contextual [hnone]
      | some q => simp [ParamCount.accepts_merge, (h.found id q hget).2 n]

end Sums

/-- What is learned by and by is held if no declaration comes after another lesson about its
variable. -/
theorem sums_run {ls : List Lesson}
    (h : ls.Pairwise fun l l' => l'.declares = true → l'.id ≠ none → l.id ≠ l'.id) :
    Sums (ls.foldl learn []) ls := by
  induction ls using reverseRec with
  | nil => exact .nil
  | append_singleton ls l ih =>
    obtain ⟨hls, -, hlast⟩ := pairwise_append.mp h
    rw [foldl_concat]
    exact (ih hls).learn fun hdeclares hid l' hl' =>
      hlast l' hl' l (mem_singleton_self l) hdeclares hid

end ParamTable

/-! ## Functions that are given to variables -/

def Expr.asFunction? : Expr → Option FuncBody
  | .function _ body => some body
  | _ => none

/-- A function that is given to a name. -/
structure NamedFunction where
  declares : Bool
  name : Ident
  body : FuncBody

def Stmt.functions : Stmt → List NamedFunction
  | .localFunction _ name body => [⟨true, name, body⟩]
  | .localAssign _ names values =>
    (names.zip values).filterMap fun (n, e) => e.asFunction?.map fun body => ⟨true, n.ident, body⟩
  | .function _ ⟨base, [], none⟩ body => [⟨false, base, body⟩]
  | .assign targets _ values =>
    (targets.zip values).filterMap fun (target, e) =>
      target.asName?.bind fun i => e.asFunction?.map fun body => ⟨false, i, body⟩
  | _ => []

def Chunk.functions (c : Chunk) : List NamedFunction := c.stmts.flatMap Stmt.functions

namespace Stmt

variable {s : Stmt} {f : NamedFunction}

theorem functions_cases (hf : f ∈ s.functions) : (f.declares = true ∧ f.name ∈ s.localNames ∧
      ∃ d, .declare d ∈ s.events ∧ d.identifier = f.name.span ∧ d.isSelf = false) ∨
    f.declares = false ∧ f.name ∈ s.bareWrites := by
  cases s with
  | localFunction pos name body =>
    obtain rfl := mem_singleton.mp hf
    exact .inl ⟨rfl, mem_singleton_self name, _, mem_cons_self, rfl, rfl⟩
  | localAssign pos names values =>
    obtain ⟨⟨n, e⟩, hmem, hgiven⟩ := mem_filterMap.mp hf
    obtain ⟨body, -, rfl⟩ := Option.map_eq_some_iff.mp hgiven
    exact .inl ⟨rfl, mem_map_of_mem (of_mem_zip hmem).1, exists_declare_of_mem_zip hmem⟩
  | function pos n body =>
    obtain ⟨base, fields, method⟩ := n
    cases fields with
    | nil =>
      cases method with
      | none =>
        obtain rfl := mem_singleton.mp hf
        exact .inr ⟨rfl, mem_singleton_self base⟩
      | some m => cases hf
    | cons field fields => cases hf
  | assign targets equal values =>
    obtain ⟨⟨target, e⟩, hmem, hgiven⟩ := mem_filterMap.mp hf
    obtain ⟨i, hi, hgiven⟩ := Option.bind_eq_some_iff.mp hgiven
    obtain ⟨body, -, rfl⟩ := Option.map_eq_some_iff.mp hgiven
    obtain rfl := Expr.asName?_eq_some.mp hi
    exact .inr ⟨rfl, mem_bareWrites_assign.mpr (of_mem_zip hmem).1⟩
  | _ => cases hf

theorem declaration_of_function (hf : f ∈ s.functions) (hdeclares : f.declares = true) :
    f.name ∈ s.localNames ∧
      ∃ d, .declare d ∈ s.events ∧ d.identifier = f.name.span ∧ d.isSelf = false := by
  rcases functions_cases hf with ⟨-, hdeclaration⟩ | ⟨hassigns, -⟩
  · exact hdeclaration
  · simp [hassigns] at hdeclares

theorem bareWrite_of_function (hf : f ∈ s.functions) (hassigns : f.declares = false) :
    f.name ∈ s.bareWrites := by
  rcases functions_cases hf with ⟨hdeclares, -⟩ | ⟨-, hwrite⟩
  · simp [hassigns] at hdeclares
  · exact hwrite

theorem localNames_of_bareWrite (hi : i ∈ s.bareWrites) : s.localNames = [] := by
  rcases cases_of_mem_bareWrites hi with ⟨targets, equal, values, rfl, -⟩ | ⟨pos, body, rfl⟩ <;> rfl

theorem sublist_localNames (hf : f ∈ s.functions) (hdeclares : f.declares = true) :
    (s.functions.map NamedFunction.name).Sublist s.localNames := by
  cases s with
  | localFunction pos name body => exact List.Sublist.refl _
  | localAssign pos names values =>
    clear hf hdeclares
    simp only [functions, localNames]
    induction names generalizing values with
    | nil => exact List.Sublist.refl _
    | cons n names ih =>
      cases values with
      | nil => exact nil_sublist _
      | cons e values =>
        cases he : e.asFunction? with
        | none => simpa [he] using (ih values).cons n.ident
        | some body => simpa [he] using (ih values).cons_cons n.ident
  | _ =>
    obtain ⟨hname, -⟩ := declaration_of_function hf hdeclares
    cases hname

theorem mention_of_function (hf : f ∈ s.functions) :
    ∃ m ∈ s.mentions, m.span.start = f.name.pos := by
  have hnames := (acts (r := .still) .empty s).named.names
  cases hdeclares : f.declares with
  | true =>
    obtain ⟨-, d, hd, hident, hself⟩ := declaration_of_function hf hdeclares
    obtain ⟨role, -, hm⟩ : ∃ role, role.isDeclaration = true ∧ ⟨role, d.name, d.identifier⟩ ∈
        s.mentions := by
      simpa [ScopeEvent.NamedIn, hself] using hnames _ hd
    exact ⟨_, hm, congrArg Span.start hident⟩
  | false =>
    obtain ⟨u, hu, -, hspan⟩ := exists_assign_of_mem_bareWrites (bareWrite_of_function hf hdeclares)
    obtain ⟨role, -, hm⟩ := (ScopeEvent.namedIn_iff_of_use? rfl).mp (hnames _ hu)
    exact ⟨_, hm, congrArg Span.start hspan⟩

end Stmt

namespace ScopeGraph

def Declares (g : ScopeGraph) (i : Ident) (id : Nat) : Prop :=
  ∃ v, g.vars[id]? = some v ∧ v.identifier = i.span

def Refers (g : ScopeGraph) (i : Ident) (id : Nat) : Prop :=
  ∃ ref ∈ g.references, ref.span.start = i.pos ∧ ref.resolved = some id

/-- A function is given to a variable, where it is declared or at a name that refers to it. -/
def Given (g : ScopeGraph) (f : NamedFunction) (id : Nat) : Prop :=
  f.declares = true ∧ g.Declares f.name id ∨ f.declares = false ∧ g.Refers f.name id

theorem Declares.pos_eq {g : ScopeGraph} {i' : Ident} (h : g.Declares i id)
    (h' : g.Declares i' id) :
    i.pos = i'.pos := by
  obtain ⟨v, hv, hident⟩ := h
  obtain ⟨w, hw, hident'⟩ := h'
  obtain rfl : v = w := Option.some.inj (hv.symm.trans hw)
  exact congrArg Span.start (hident.symm.trans hident')

theorem Given.declared {g : ScopeGraph} {f : NamedFunction} (h : g.Given f id)
    (hdeclares : f.declares = true) : g.Declares f.name id := by
  rcases h with ⟨-, hdeclared⟩ | ⟨hassigns, -⟩
  · exact hdeclared
  · simp [hassigns] at hdeclares

end ScopeGraph

def Chunk.Gives (c : Chunk) (id : Nat) (body : FuncBody) : Prop :=
  ∃ f ∈ c.functions, f.body = body ∧ c.resolve.Given f id

namespace LintInput

variable (input : LintInput)

def lesson (f : NamedFunction) : Lesson :=
  ⟨f.declares, if f.declares then input.declaredBy? f.name else input.referredBy? f.name,
    .ofBody f.body⟩

theorem learn_eq (t : ParamTable) (s : Stmt) :
    input.learn t s = (s.functions.map input.lesson).foldl ParamTable.learn t := by
  cases s with
  | localFunction pos name body => rfl
  | localAssign pos names values =>
    rw [learn, functions, foldl_map, foldl_filterMap]
    congr 1
    funext t pair
    obtain ⟨n, e⟩ := pair
    cases e <;> rfl
  | function pos n body =>
    obtain ⟨base, fields, method⟩ := n
    cases fields <;> cases method <;> rfl
  | assign targets equal values =>
    rw [learn, functions, foldl_map, foldl_filterMap]
    congr 1
    funext t pair
    obtain ⟨target, e⟩ := pair
    cases target <;> cases e <;> rfl
  | _ => rfl

theorem paramCounts_eq :
    input.paramCounts = (input.chunk.functions.map input.lesson).foldl ParamTable.learn [] := by
  rw [paramCounts, Chunk.functions, Chunk.stmts]
  generalize input.chunk.nodes = nodes
  generalize ([] : ParamTable) = t
  induction nodes generalizing t with
  | nil => rfl
  | cons node nodes ih =>
    rw [foldl_cons, ih]
    cases node with
    | stmt s =>
      have hstmts : (Node.stmt s :: nodes).filterMap Node.stmt? = s :: nodes.filterMap Node.stmt? :=
        rfl
      rw [hstmts, flatMap_cons, map_append, foldl_append, ← learn_eq]
    | _ => rfl

end LintInput

/-! ## Variables -/

namespace Parser

variable {source : Bytes} {chunk : Chunk}

theorem hoisted_eq_false (h : parse source = .ok chunk) (hd : .declare d ∈ chunk.events)
    (hself : d.isSelf = false) {k : Nat} (hv : chunk.resolve.vars[k]? = some v)
    (hident : v.identifier = d.identifier) : v.hoisted = false := by
  rw [Bool.eq_false_iff]
  intro hhoisted
  obtain ⟨before, u, after, hsplit, hsize, hlookup, -, hplace⟩ :=
    exists_assign_of_hoisted hv hhoisted
  obtain ⟨ref, href, huse, hresolved⟩ := exists_reference_of_hoisting hsplit hlookup
  have hspan : d.identifier = ref.span := by
    rw [← hident, hplace, ← huse]
    rfl
  obtain ⟨id, w, hid, hw, hlocal, -⟩ := exists_variable_of_declare h href hd hself hspan
  rcases hresolved with hnone | hglobal
  · simp [hnone] at hid
  · rw [hglobal, hsize] at hid
    obtain rfl := Option.some.inj hid
    obtain rfl : v = w := Option.some.inj (hv.symm.trans hw)
    simp [hlocal] at hhoisted

theorem start_lt_of_refers (h : parse source = .ok chunk) {s : Stmt} (hs : s ∈ chunk.stmts)
    (hi : i ∈ s.bareWrites) (hrefers : chunk.resolve.Refers i id)
    (hv : chunk.resolve.vars[id]? = some v) (hlocal : v.hoisted = false) :
    ∀ m ∈ s.mentions, v.identifier.start < m.span.start := by
  obtain ⟨ref, href, hstart, hid⟩ := hrefers
  obtain ⟨u, hu, -, hspan⟩ :=
    Chunk.exists_assign_of_mem_bareWrites (mem_flatMap.mpr ⟨s, hs, hi⟩)
  obtain ⟨-, -, -, rfl, -⟩ := use_unique h href hu rfl (by rw [hstart, hspan]; rfl)
  have hbinds := (binds_iff h href _).mpr rfl
  have hdecl : chunk.resolve.declarationOf? ref.resolved = some v.identifier :=
    ScopeGraph.declarationOf?_eq_some.mpr
      ⟨id, v, hid, hv, Variable.declaration?_eq_some.mpr ⟨hlocal, rfl⟩⟩
  rw [hdecl] at hbinds
  exact start_lt_of_bareWrite h hs hi (hspan ▸ hbinds)

/-- A statement that declares names has each of them once. -/
theorem not_given_of_sublist (h : parse source = .ok chunk) {s : Stmt} (hs : s ∈ chunk.stmts)
    {f f' : NamedFunction} (hsub : [f, f'].Sublist s.functions) (hdeclares : f'.declares = true)
    (hgiven' : chunk.resolve.Given f' id) : ¬ chunk.resolve.Given f id := by
  intro hgiven
  have hf' : f' ∈ s.functions := hsub.subset (by simp)
  have hnames := (hsub.map NamedFunction.name).trans (sublist_localNames hf' hdeclares)
  have hlt := pairwise_iff_forall_sublist.mp (pairwise_localNames h hs) hnames
  rcases hgiven with ⟨-, hdecl⟩ | ⟨hassigns, -⟩
  · rw [hdecl.pos_eq (hgiven'.declared hdeclares)] at hlt
    exact Nat.lt_irrefl _ hlt
  · have hwrite := bareWrite_of_function (hsub.subset (by simp)) hassigns
    have hname' := (declaration_of_function hf' hdeclares).1
    rw [localNames_of_bareWrite hwrite] at hname'
    cases hname'

/-- What an earlier statement gives a function to is not declared by a later one. -/
theorem not_given_of_ahead (h : parse source = .ok chunk) {s s' : Stmt} (hs : s ∈ chunk.stmts)
    (hs' : s' ∈ chunk.stmts) (hahead : s.Ahead s') {f f' : NamedFunction} (hf : f ∈ s.functions)
    (hf' : f' ∈ s'.functions) (hdeclares : f'.declares = true)
    (hgiven' : chunk.resolve.Given f' id) : ¬ chunk.resolve.Given f id := by
  intro hgiven
  have hdecl' := hgiven'.declared hdeclares
  obtain ⟨hname', d, hd, hident, hself⟩ := declaration_of_function hf' hdeclares
  obtain ⟨m, hm, hmspan⟩ := mention_of_function hf
  obtain ⟨m', hm', hmspan'⟩ := mention_of_function hf'
  have hlt := start_lt_of_localName h hs' hname'
  have hbefore : f.name.pos < s.span.stop := hmspan ▸ start_lt_of_mention h hs hm
  rcases hgiven with ⟨hdeclares, hdecl⟩ | ⟨hassigns, hrefers⟩
  · -- The name of an earlier declaration stands before the later one.
    rw [hdecl.pos_eq hdecl'] at hbefore
    rcases hahead with hle | ⟨-, hle⟩
    · omega
    · have hle := hle _ (declaration_of_function hf hdeclares).1
      rw [hdecl.pos_eq hdecl'] at hle
      omega
  -- An assignment refers to a local variable only after its declaration.
  · obtain ⟨v, hv, hspan⟩ := hdecl'
    have hlocal :=
      hoisted_eq_false h (chunk.events_stmt_subset (Chunk.mem_stmts.mp hs') hd) hself hv
      (hspan.trans hident.symm)
    have hwrite := bareWrite_of_function hf hassigns
    have hwritten := start_lt_of_refers h hs hwrite hrefers hv hlocal
    rw [hspan] at hwritten
    rcases hahead with hle | ⟨hsub, -⟩
    · have hname : f'.name.pos < f.name.pos := hmspan ▸ hwritten m hm
      omega
    · exact Nat.lt_irrefl _ (hmspan' ▸ hwritten m' (hsub hm'))

theorem pairwise_functions (h : parse source = .ok chunk) :
    chunk.functions.Pairwise fun f f' => f'.declares = true → ∀ id,
      chunk.resolve.Given f' id → ¬ chunk.resolve.Given f id := by
  rw [Chunk.functions, pairwise_flatMap]
  constructor
  · intro s hs
    rw [pairwise_iff_forall_sublist]
    exact fun hsub hdeclares _ => not_given_of_sublist h hs hsub hdeclares
  · refine (ahead_stmts h).imp_of_mem fun hs hs' hahead f hf f' hf' hdeclares _ => ?_
    exact not_given_of_ahead h hs hs' hahead hf hf' hdeclares

end Parser

namespace LintInput.Parsed

variable {source : Bytes} {input : LintInput} (h : input.Parsed source)
include h

theorem declaredBy?_eq_some_iff (hd : .declare d ∈ input.chunk.events) (hself : d.isSelf = false)
    (hident : d.identifier = i.span) :
    input.declaredBy? i = some id ↔ input.chunk.resolve.Declares i id := by
  rw [declaredBy?, h.graph]
  have hfirst : ∀ {k : Nat}, input.chunk.resolve.vars.findIdx?
      (fun v => v.identifier == i.span) = some k →
      input.chunk.resolve.Declares i k := by
    intro k hk
    obtain ⟨hlt, hspan, -⟩ := Array.findIdx?_eq_some_iff_getElem.mp hk
    exact ⟨_, Array.getElem?_eq_getElem hlt, beq_iff_eq.mp hspan⟩
  refine ⟨hfirst, ?_⟩
  rintro ⟨v, hv, hspan⟩
  cases hk : input.chunk.resolve.vars.findIdx? (fun v => v.identifier == i.span) with
  | none =>
    have hnot := Array.findIdx?_eq_none_iff.mp hk v (Array.mem_of_getElem? hv)
    simp [hspan] at hnot
  | some k =>
    -- Neither of the two is a global, and a declaration has one variable.
    obtain ⟨w, hw, hspan'⟩ := hfirst hk
    have hlocal := Parser.hoisted_eq_false h.parse hd hself hv (hspan.trans hident.symm)
    have hlocal' := Parser.hoisted_eq_false h.parse hd hself hw (hspan'.trans hident.symm)
    rw [Parser.variable_unique h.parse hw hv (Variable.declaration?_eq_some.mpr ⟨hlocal', hspan'⟩)
      (Variable.declaration?_eq_some.mpr ⟨hlocal, hspan⟩)]

theorem referredBy?_eq_some_iff :
    input.referredBy? i = some id ↔ input.chunk.resolve.Refers i id := by
  rw [referredBy?, h.graph, Option.bind_eq_some_iff]
  constructor
  · rintro ⟨ref, href, hid⟩
    have hstart := Array.find?_some href
    exact ⟨ref, Array.mem_of_find?_eq_some href, beq_iff_eq.mp hstart, hid⟩
  · rintro ⟨ref, href, hstart, hid⟩
    cases hfind : input.chunk.resolve.references.find? (fun ref => ref.span.start == i.pos) with
    | none =>
      have hnot := Array.find?_eq_none.mp hfind ref href
      simp [hstart] at hnot
    | some ref' =>
      have hstart' := Array.find?_some hfind
      rw [beq_iff_eq, ← hstart] at hstart'
      rw [Parser.reference_unique h.parse (Array.mem_of_find?_eq_some hfind) href hstart']
      exact ⟨ref, rfl, hid⟩

theorem lesson_id_iff {f : NamedFunction} (hf : f ∈ input.chunk.functions) :
    (input.lesson f).id = some id ↔ input.chunk.resolve.Given f id := by
  cases hdeclares : f.declares with
  | true =>
    obtain ⟨s, hs, hf⟩ := mem_flatMap.mp hf
    obtain ⟨-, d, hd, hident, hself⟩ := declaration_of_function hf hdeclares
    have hd := input.chunk.events_stmt_subset (Chunk.mem_stmts.mp hs) hd
    simp [lesson, ScopeGraph.Given, hdeclares, h.declaredBy?_eq_some_iff hd hself hident]
  | false => simp [lesson, ScopeGraph.Given, hdeclares, h.referredBy?_eq_some_iff]

theorem sums_paramCounts : input.paramCounts.Sums (input.chunk.functions.map input.lesson) := by
  rw [paramCounts_eq]
  refine ParamTable.sums_run (pairwise_map.mpr ?_)
  refine (Parser.pairwise_functions h.parse).imp_of_mem
    fun {f f'} hf hf' hordered hdeclares hid heq => ?_
  obtain ⟨id, hid⟩ := Option.ne_none_iff_exists'.mp hid
  exact hordered hdeclares id ((h.lesson_id_iff hf').mp hid)
    ((h.lesson_id_iff hf).mp (heq.trans hid))

end LintInput.Parsed

/-! ## Findings -/

/-- A name refers to a variable that is given functions, none of which takes a number of
arguments. -/
def Chunk.Overruns (c : Chunk) (i : Ident) (n : Nat) : Prop :=
  ∃ id, c.resolve.Refers i id ∧ (∃ body, c.Gives id body) ∧
    ∀ body, c.Gives id body → body.hasVararg = false ∧ body.params.length < n

namespace LintInput

variable {source : Bytes} {input : LintInput}

namespace Parsed

variable (h : input.Parsed source)
include h

theorem accepts_eq_false_iff (hp : input.paramCounts.get? id = some p) : p.accepts n = false ↔
      ∀ body, input.chunk.Gives id body → body.hasVararg = false ∧ body.params.length < n := by
  rw [← Bool.not_eq_true, (h.sums_paramCounts.found id p hp).2 n]
  constructor
  · rintro hnone body ⟨f, hf, rfl, hgiven⟩
    rw [← ParamCount.accepts_ofBody, ← Bool.not_eq_true]
    exact fun haccepts =>
      hnone ⟨_, mem_map_of_mem hf, (h.lesson_id_iff hf).mpr hgiven, haccepts⟩
  · rintro hall ⟨l, hl, hid, haccepts⟩
    obtain ⟨f, hf, rfl⟩ := mem_map.mp hl
    have hrejects :=
      ParamCount.accepts_ofBody.mpr (hall f.body ⟨f, hf, rfl, (h.lesson_id_iff hf).mp hid⟩)
    exact absurd haccepts (by simp [lesson, hrejects])

end Parsed

theorem surplus?_isSome : (input.surplus? t ⟨.name i, none, form, args⟩).isSome = true ↔
      ∃ id p, input.referredBy? i = some id ∧ t.get? id = some p ∧
        p.accepts args.length = false := by
  cases hid : input.referredBy? i with
  | none => simp [surplus?, hid]
  | some id =>
    cases hp : t.get? id with
    | none => simp [surplus?, hid, hp]
    | some p => simp [surplus?, hid, hp]

theorem surplus?_eq_some {c : Call} {x : Finding} (hx : input.surplus? t c = some x) :
    (∃ i, c.callee = .name i ∧ c.method = none) ∧
      x.primary.start = c.span.start ∧ x.primary.stop = c.span.stop := by
  unfold surplus? at hx
  split at hx
  · next i hcallee hmethod =>
    obtain ⟨id, -, hx⟩ := Option.bind_eq_some_iff.mp hx
    obtain ⟨p, -, hx⟩ := Option.bind_eq_some_iff.mp hx
    split at hx
    · cases hx
    · cases hx
      exact ⟨⟨i, hcallee, hmethod⟩, rfl, rfl⟩
  · cases hx

namespace Parsed

variable (h : input.Parsed source)
include h

/-- A call is found just when it overruns every function of its variable. -/
theorem surplus?_isSome_iff :
    (input.surplus? input.paramCounts ⟨.name i, none, form, args⟩).isSome = true ↔
      input.chunk.Overruns i args.length := by
  rw [surplus?_isSome]
  constructor
  · rintro ⟨id, p, hid, hp, hrejects⟩
    obtain ⟨l, hl, hlid⟩ := (h.sums_paramCounts.found id p hp).1
    obtain ⟨f, hf, rfl⟩ := mem_map.mp hl
    refine ⟨id, h.referredBy?_eq_some_iff.mp hid, ⟨f.body, f, hf, rfl, ?_⟩,
      (h.accepts_eq_false_iff hp).mp hrejects⟩
    exact (h.lesson_id_iff hf).mp hlid
  · rintro ⟨id, hrefers, ⟨body, f, hf, -, hgiven⟩, hall⟩
    cases hp : input.paramCounts.get? id with
    | none =>
      have hmissing := h.sums_paramCounts.missing id hp _ (mem_map_of_mem hf)
      exact absurd ((h.lesson_id_iff hf).mpr hgiven) hmissing
    | some p =>
      exact ⟨id, p, h.referredBy?_eq_some_iff.mpr hrefers, hp, (h.accepts_eq_false_iff hp).mpr hall⟩

/-- What is found is a call of a name that refers to a variable. The variable is given at least one
function, and each function that it is given has a fixed number of parameters, less than the number
of arguments of the call. -/
theorem surplusArguments_sound : ∀ x ∈ input.surplusArguments, ∃ i form args,
    .expr (.call (.name i) none form args) ∈ input.chunk.nodes ∧
    x.primary.start = (Expr.call (.name i) none form args).span.start ∧
    x.primary.stop = (Expr.call (.name i) none form args).span.stop ∧
    ∃ id, input.chunk.resolve.Refers i id ∧ (∃ body, input.chunk.Gives id body) ∧
      ∀ body, input.chunk.Gives id body →
        body.hasVararg = false ∧ body.params.length < args.length := by
  intro x hx
  obtain ⟨node, hnode, hx⟩ := List.mem_filterMap.mp hx
  cases node with
  | expr e =>
    cases e with
    | call callee method form args =>
      obtain ⟨⟨i, rfl, rfl⟩, hstart, hstop⟩ := surplus?_eq_some hx
      refine ⟨i, form, args, hnode, hstart, hstop, ?_⟩
      exact h.surplus?_isSome_iff.mp (Option.isSome_iff_exists.mpr ⟨x, hx⟩)
    | _ => cases hx
  | _ => cases hx

end Parsed

/-- A variable that is given functions where it is declared and inside of another function, and a
variable of the same name that takes any number of arguments. -/
def regivenSource : Bytes :=
  "local f = function(a) end function g() f = function(a, b) end end f(1, 2) f(1, 2, 3) " ++
    "local function f(...) end f(1, 2, 3, 4)"

theorem Parsed.surplusArguments_sound_regiven :
    ∃ chunk, Parser.parse regivenSource = .ok chunk ∧
      (ofChunk regivenSource chunk Library.empty).surplusArguments.map
        (fun x => x.primary.start) = [74] ∧
      ∀ x ∈ (ofChunk regivenSource chunk Library.empty).surplusArguments, ∃ i form args,
        .expr (.call (.name i) none form args) ∈ chunk.nodes ∧
        x.primary.start = (Expr.call (.name i) none form args).span.start ∧
        x.primary.stop = (Expr.call (.name i) none form args).span.stop ∧
        ∃ id, chunk.resolve.Refers i id ∧ (∃ body, chunk.Gives id body) ∧
          ∀ body, chunk.Gives id body →
            body.hasVararg = false ∧ body.params.length < args.length := by
  refine exists_ok_and (by decide +kernel) fun chunk hparse _ => ?_
  have hparsed : (ofChunk regivenSource chunk Library.empty).Parsed regivenSource := ⟨hparse, rfl⟩
  exact hparsed.surplusArguments_sound

/-- A variable whose function is replaced by something that need not be one. -/
def replacedSource : Bytes := "local f = function(a) end\nf = print\nf(1, 2)"

/-- A call is found although the variable has been given a value that is not a function of the
chunk. -/
theorem surplusArguments_replaced : ∃ chunk, Parser.parse replacedSource = .ok chunk ∧
    chunk.functions.map (fun f => f.name.pos) = [6] ∧
    chunk.bareWrites.map Ident.pos = [26] ∧
    (chunk.resolve.references.toList.map fun ref => (ref.span.start, ref.resolved)) =
      [(6, some 1), (30, none), (26, some 1), (36, some 1)] ∧
    (ofChunk replacedSource chunk Library.empty).surplusArguments.map
    (fun x => x.primary.start) = [36] := by
  exact exists_ok (by decide +kernel)

end LintInput

end LuaLint
