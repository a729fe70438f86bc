import LuaLint.Proofs.Scope.Resolution

/-!
# Linked scope graphs

A reference names its scope and its variable, and both list their references. In a linked graph the
lists hold the numbers of exactly those entries that name the scope or the variable, in order. A
reference stands inside of the scope of its variable, and a variable inside of the scope of the one
that it hides.

Main statements: `ScopeGraph.Linked.revise`, `ScopeGraph.Linked.resolved_iff`,
`ScopeGraph.listed_iff`.
-/

namespace LuaLint

open List

variable {name : Bytes} {ids : List Nat} {i scope v : Nat}

/-! ## Entries with a property -/

/-- The numbers of the entries with a property, in order. -/
def numbers {α : Type} (p : α → Bool) (xs : Array α) : List Nat :=
  (List.range xs.size).filter fun i => (xs[i]?).any p

section Numbers

variable {α β : Type} {p : α → Bool} {xs ys : Array α}

theorem mem_numbers : i ∈ numbers p xs ↔ ∃ x, xs[i]? = some x ∧ p x = true := by
  rw [numbers, mem_filter, Option.any_eq_true, and_iff_right_iff_imp]
  rintro ⟨x, hx, -⟩
  exact mem_range.mpr (Array.getElem?_eq_some_iff.mp hx).1

theorem pairwise_numbers (p : α → Bool) (xs : Array α) : (numbers p xs).Pairwise (· < ·) :=
  pairwise_lt_range.filter _

theorem count_numbers : (numbers p xs).count i = 1 ↔ ∃ x, xs[i]? = some x ∧ p x = true := by
  have hnodup : (numbers p xs).Nodup := nodup_range.filter _
  rw [← mem_numbers, hnodup.count]
  split <;> simp_all

theorem numbers_eq_nil (h : ∀ x ∈ xs, p x = false) : numbers p xs = [] := by
  refine eq_nil_iff_forall_not_mem.mpr fun i hi => ?_
  obtain ⟨x, hx, hp⟩ := mem_numbers.mp hi
  simp [h x (Array.mem_of_getElem? hx)] at hp

theorem numbers_push (p : α → Bool) (xs : Array α) (x : α) :
    numbers p (xs.push x) = numbers p xs ++ if p x then [xs.size] else [] := by
  rw [numbers, Array.size_push, range_succ, filter_append]
  -- The new entry has the last number, and the others keep theirs.
  congr 1
  · refine filter_congr fun i hi => ?_
    rw [Array.getElem?_push, if_neg (Nat.ne_of_lt (mem_range.mp hi))]
  · simp [filter_cons]

theorem numbers_map {q : β → Bool} {f : α → β} (h : ∀ x ∈ xs, q (f x) = p x) :
    numbers q (xs.map f) = numbers p xs := by
  rw [numbers, numbers, Array.size_map]
  refine filter_congr fun i _ => ?_
  rw [Array.getElem?_map, Option.any_map]
  cases hx : xs[i]? with
  | none => rfl
  | some x => exact h x (Array.mem_of_getElem? hx)

theorem exists_of_getElem?_modify {f : α → α} {j : Nat} {y : α}
    (h : (xs.modify i f)[j]? = some y) : ∃ x, xs[j]? = some x ∧ y = if i = j then f x else x := by
  rw [Array.getElem?_modify] at h
  split at h
  · obtain ⟨x, hx, rfl⟩ := Option.map_eq_some_iff.mp h
    exact ⟨x, hx, by simp [*]⟩
  · exact ⟨y, h, by simp [*]⟩

theorem getElem?_push_cases {x y : α} (h : (xs.push x)[i]? = some y) :
    xs[i]? = some y ∨ i = xs.size ∧ y = x := by
  rw [Array.getElem?_push] at h
  split at h
  · exact .inr ⟨by assumption, (Option.some.inj h).symm⟩
  · exact .inl h

theorem getElem?_push_of_some {x y : α} (h : xs[i]? = some y) : (xs.push x)[i]? = some y := by
  have hi : i ≠ xs.size := Nat.ne_of_lt (Array.getElem?_eq_some_iff.mp h).1
  rw [Array.getElem?_push, if_neg hi, h]

variable {k : α → β}

theorem exists_of_same_view (h : ∀ i : Nat, (ys[i]?).map k = (xs[i]?).map k) {y : α}
    (hy : ys[i]? = some y) : ∃ x, xs[i]? = some x ∧ k x = k y := by
  have hi := h i
  rw [hy, Option.map_some] at hi
  exact Option.map_eq_some_iff.mp hi.symm

theorem size_eq_of_same_view {γ : Type} {zs : Array γ} {j : γ → β}
    (h : ∀ i : Nat, (ys[i]?).map k = (zs[i]?).map j) : ys.size = zs.size := by
  have hnone : ∀ i : Nat, ys.size ≤ i ↔ zs.size ≤ i := by
    intro i
    rw [← Array.getElem?_eq_none_iff, ← Array.getElem?_eq_none_iff,
      ← Option.map_eq_none_iff (f := k), h i, Option.map_eq_none_iff]
  exact Nat.le_antisymm ((hnone _).mpr (Nat.le_refl _)) ((hnone _).mp (Nat.le_refl _))

theorem numbers_of_same_view (q : β → Bool) (h : ∀ i : Nat, (ys[i]?).map k = (xs[i]?).map k) :
    numbers (fun y => q (k y)) ys = numbers (fun x => q (k x)) xs := by
  have hany : ∀ o : Option α, o.any (fun x => q (k x)) = (o.map k).any q := by
    intro o
    cases o <;> rfl
  rw [numbers, numbers, size_eq_of_same_view h]
  refine filter_congr fun i _ => ?_
  rw [hany, hany, h i]

end Numbers

/-! ## Scopes inside of scopes -/

namespace ScopeGraph

/-- A scope is another one or lies inside of it. -/
inductive Inside (g : ScopeGraph) : Nat → Nat → Prop where
  | self {id : Nat} {s : Scope} : g.scopes[id]? = some s → Inside g id id
  | parent {id parent outer : Nat} {s : Scope} : g.scopes[id]? = some s →
      s.parent = some parent → Inside g parent outer → Inside g id outer

/-- The first scope has no scope around it, and the parent of any other one is an earlier scope. -/
def Rooted (g : ScopeGraph) : Prop :=
  ∀ (id : Nat) (s : Scope), g.scopes[id]? = some s →
    id = 0 ∧ s.parent = none ∨ ∃ parent < id, s.parent = some parent

variable {g g' : ScopeGraph} {id outer : Nat}

theorem inside_of_mem_ancestorsUpTo {fuel : Nat} (h : outer ∈ g.ancestorsUpTo fuel id) :
    g.Inside id outer := by
  induction fuel generalizing id with
  | zero => simp [ancestorsUpTo] at h
  | succ fuel ih =>
    rw [ancestorsUpTo] at h
    split at h
    · simp at h
    · rename_i s hs
      rcases mem_cons.mp h with rfl | h
      · exact .self hs
      · cases hparent : s.parent with
        | none => simp [hparent] at h
        | some parent => exact .parent hs hparent (ih (by simpa [hparent] using h))

theorem mem_ancestorsUpTo (hg : g.Rooted) (h : g.Inside id outer) {fuel : Nat}
    (hfuel : id < fuel) : outer ∈ g.ancestorsUpTo fuel id := by
  induction h generalizing fuel with
  | self hs =>
    obtain ⟨fuel, rfl⟩ := Nat.exists_eq_succ_of_ne_zero (Nat.ne_zero_of_lt hfuel)
    simp [ancestorsUpTo, hs]
  | parent hs hparent _ ih =>
    obtain ⟨fuel, rfl⟩ := Nat.exists_eq_succ_of_ne_zero (Nat.ne_zero_of_lt hfuel)
    -- A parent has a smaller number than its child, which the fuel allows for.
    rcases hg _ _ hs with ⟨-, hnone⟩ | ⟨p, hlt, hp⟩
    · simp [hnone] at hparent
    · obtain rfl : p = _ := Option.some.inj (hp.symm.trans hparent)
      have hmem := ih (Nat.lt_of_lt_of_le hlt (Nat.le_of_lt_succ hfuel))
      simp [ancestorsUpTo, hs, hparent, hmem]

theorem inside_of_within (h : g.within id outer = true) : g.Inside id outer :=
  inside_of_mem_ancestorsUpTo (contains_iff_mem.mp h)

theorem Inside.within (h : g.Inside id outer) (hg : g.Rooted) : g.within id outer = true :=
  contains_iff_mem.mpr (mem_ancestorsUpTo hg h (Nat.lt_succ_self id))

/-- The open scopes, innermost first: each is the parent of the one before. -/
def Chain (g : ScopeGraph) : List Nat → Prop
  | [] => True
  | id :: outer => (∃ s, g.scopes[id]? = some s ∧ s.parent = outer.head?) ∧ g.Chain outer

theorem Chain.inside (h : g.Chain (id :: ids)) (houter : outer ∈ id :: ids) :
    g.Inside id outer := by
  induction ids generalizing id with
  | nil =>
    obtain ⟨⟨s, hs, -⟩, -⟩ := h
    obtain rfl := mem_singleton.mp houter
    exact .self hs
  | cons next ids ih =>
    obtain ⟨⟨s, hs, hparent⟩, htail⟩ := h
    rcases mem_cons.mp houter with rfl | houter
    · exact .self hs
    · exact .parent hs hparent (ih htail houter)

/-! ## Graphs that grow -/

/-- A name in a scope can refer to a variable: it is that of the variable, and the scope lies in
that of the declaration. -/
def Sees (g : ScopeGraph) (scope : Nat) (name : Bytes) (v : Nat) : Prop :=
  ∃ var, g.vars[v]? = some var ∧ var.name = name ∧ g.Inside scope var.scope

theorem Sees.lt (h : g.Sees scope name v) : v < g.vars.size := by
  obtain ⟨var, hvar, -⟩ := h
  exact (Array.getElem?_eq_some_iff.mp hvar).1

/-- Scopes stay where they are, and variables keep their names and scopes. -/
structure Grows (g g' : ScopeGraph) : Prop where
  parent : ∀ (id : Nat) (s : Scope), g.scopes[id]? = some s →
    (g'.scopes[id]?).map Scope.parent = some s.parent
  /-- A variable keeps its name and its scope. -/
  var : ∀ (v : Nat) (var : Variable), g.vars[v]? = some var →
    (g'.vars[v]?).map (fun w => (w.name, w.scope)) = some (var.name, var.scope)

theorem Inside.grows (h : g.Inside id outer) (hg : g.Grows g') : g'.Inside id outer := by
  induction h with
  | self hs =>
    obtain ⟨s', hs', -⟩ := Option.map_eq_some_iff.mp (hg.parent _ _ hs)
    exact .self hs'
  | parent hs hparent _ ih =>
    obtain ⟨s', hs', heq⟩ := Option.map_eq_some_iff.mp (hg.parent _ _ hs)
    exact .parent hs' (heq.trans hparent) ih

theorem Sees.grows (h : g.Sees scope name v) (hg : g.Grows g') : g'.Sees scope name v := by
  obtain ⟨var, hvar, hname, hinside⟩ := h
  obtain ⟨var', hvar', heq⟩ := Option.map_eq_some_iff.mp (hg.var v var hvar)
  obtain ⟨hname', hscope'⟩ := Prod.mk.inj heq
  exact ⟨var', hvar', hname'.trans hname, hscope' ▸ hinside.grows hg⟩

theorem Chain.grows (h : g.Chain ids) (hg : g.Grows g') : g'.Chain ids := by
  induction ids with
  | nil => trivial
  | cons id ids ih =>
    obtain ⟨⟨s, hs, hparent⟩, htail⟩ := h
    obtain ⟨s', hs', heq⟩ := Option.map_eq_some_iff.mp (hg.parent id s hs)
    exact ⟨⟨s', hs', heq.trans hparent⟩, ih htail⟩

/-- The same scopes and the same variables, whatever they list of references. -/
structure Revises (g g' : ScopeGraph) : Prop where
  scopes : ∀ id : Nat, (g'.scopes[id]?).map (fun s => (s.parent, s.vars)) =
    (g.scopes[id]?).map fun s => (s.parent, s.vars)
  /-- The variables have the same names, stand in the same scopes and hide the same variables. -/
  vars : ∀ v : Nat, (g'.vars[v]?).map (fun w => (w.name, w.scope, w.shadowed)) =
    (g.vars[v]?).map fun w => (w.name, w.scope, w.shadowed)

theorem Revises.grows (h : g.Revises g') : g.Grows g' where
  parent id s hs := by
    obtain ⟨s', hs', heq⟩ := exists_of_same_view (fun i => (h.scopes i).symm) hs
    rw [hs', Option.map_some, (Prod.mk.inj heq).1]
  var v var hvar := by
    obtain ⟨var', hvar', heq⟩ := exists_of_same_view (fun i => (h.vars i).symm) hvar
    simp only [Prod.mk.injEq] at heq
    rw [hvar', Option.map_some, heq.1, heq.2.1]

/-! ## Linked graphs -/

/-- The lists of a graph agree with what its entries name. -/
structure Linked (g : ScopeGraph) : Prop where
  /-- Parents come first. -/
  rooted : g.Rooted
  placed : ∀ ref ∈ g.references, ref.scope < g.scopes.size
  /-- Variables are declared in scopes of the graph. -/
  housed : ∀ var ∈ g.vars, var.scope < g.scopes.size
  /-- A scope lists the references made in it. -/
  uses : ∀ (id : Nat) (s : Scope), g.scopes[id]? = some s →
    s.references = numbers (fun ref => ref.scope == id) g.references
  declares : ∀ (id : Nat) (s : Scope), g.scopes[id]? = some s →
    s.vars = numbers (fun var => var.scope == id) g.vars
  /-- A variable lists the references that refer to it. -/
  occurrences : ∀ (v : Nat) (var : Variable), g.vars[v]? = some var →
    var.references = numbers (fun ref => ref.resolved == some v) g.references
  resolved : ∀ ref ∈ g.references, ∀ v, ref.resolved = some v → g.Sees ref.scope ref.name v
  /-- A variable could see the one that it hides, which is older. -/
  shadowed : ∀ (v : Nat) (var : Variable), g.vars[v]? = some var → ∀ w, var.shadowed = some w →
    w < v ∧ g.Sees var.scope var.name w

/-- A graph stays linked when its lists are kept with its references. -/
theorem Linked.revise (h : g.Linked) (hrev : g.Revises g')
    (hplaced : ∀ ref ∈ g'.references, ref.scope < g.scopes.size)
    (huses : ∀ (id : Nat) (s : Scope), g'.scopes[id]? = some s →
      s.references = numbers (fun ref => ref.scope == id) g'.references)
    (hoccurrences : ∀ (v : Nat) (var : Variable), g'.vars[v]? = some var →
      var.references = numbers (fun ref => ref.resolved == some v) g'.references)
    (hresolved : ∀ ref ∈ g'.references, ∀ v, ref.resolved = some v →
      g.Sees ref.scope ref.name v) : g'.Linked where
  -- What a revision keeps is read off the old graph.
  rooted id s' hs' := by
    obtain ⟨s, hs, heq⟩ := exists_of_same_view hrev.scopes hs'
    rw [← (Prod.mk.inj heq).1]
    exact h.rooted id s hs
  placed := by
    rw [size_eq_of_same_view hrev.scopes]
    exact hplaced
  housed var' hvar' := by
    obtain ⟨v, hv⟩ := Array.mem_iff_getElem?.mp hvar'
    obtain ⟨var, hvar, heq⟩ := exists_of_same_view hrev.vars hv
    simp only [Prod.mk.injEq] at heq
    rw [size_eq_of_same_view hrev.scopes, ← heq.2.1]
    exact h.housed var (Array.mem_of_getElem? hvar)
  uses := huses
  declares id s' hs' := by
    obtain ⟨s, hs, heq⟩ := exists_of_same_view hrev.scopes hs'
    rw [← (Prod.mk.inj heq).2, h.declares id s hs]
    exact (numbers_of_same_view (fun p => p.2.1 == id) hrev.vars).symm
  occurrences := hoccurrences
  resolved ref href v hv := (hresolved ref href v hv).grows hrev.grows
  shadowed v var' hvar' w hw := by
    obtain ⟨var, hvar, heq⟩ := exists_of_same_view hrev.vars hvar'
    simp only [Prod.mk.injEq] at heq
    obtain ⟨hlt, hsees⟩ := h.shadowed v var hvar w (heq.2.2.trans hw)
    rw [← heq.1, ← heq.2.1]
    exact ⟨hlt, hsees.grows hrev.grows⟩

theorem Linked.of_same_views (h : g.Linked) (hscopes : g'.scopes = g.scopes)
    (hvars : ∀ v : Nat, (g'.vars[v]?).map (fun w => (w.name, w.scope, w.shadowed, w.references)) =
      (g.vars[v]?).map fun w => (w.name, w.scope, w.shadowed, w.references))
    (hrefs : ∀ i : Nat, (g'.references[i]?).map (fun ref => (ref.name, ref.scope, ref.resolved)) =
      (g.references[i]?).map fun ref => (ref.name, ref.scope, ref.resolved)) :
    g.Revises g' ∧ g'.Linked := by
  have hrev : g.Revises g' := by
    refine ⟨fun id => by rw [hscopes], fun v => ?_⟩
    have hv := congrArg (Option.map fun p => (p.1, p.2.1, p.2.2.1)) (hvars v)
    simpa only [Option.map_map, Function.comp_def] using hv
  -- Each reference stands for one that had the same links before.
  have hold : ∀ ref' ∈ g'.references, ∃ ref ∈ g.references,
      ref.name = ref'.name ∧ ref.scope = ref'.scope ∧ ref.resolved = ref'.resolved := by
    intro ref' href'
    obtain ⟨i, hi⟩ := Array.mem_iff_getElem?.mp href'
    obtain ⟨ref, href, heq⟩ := exists_of_same_view hrefs hi
    simp only [Prod.mk.injEq] at heq
    exact ⟨ref, Array.mem_of_getElem? href, heq⟩
  refine ⟨hrev, h.revise hrev ?_ ?_ ?_ ?_⟩
  · intro ref' href'
    obtain ⟨ref, href, -, hscope, -⟩ := hold ref' href'
    exact hscope ▸ h.placed ref href
  · intro id s hs
    rw [hscopes] at hs
    rw [h.uses id s hs]
    exact (numbers_of_same_view (fun p => p.2.1 == id) hrefs).symm
  · intro v var' hvar'
    obtain ⟨var, hvar, heq⟩ := exists_of_same_view hvars hvar'
    simp only [Prod.mk.injEq] at heq
    rw [← heq.2.2.2, h.occurrences v var hvar]
    exact (numbers_of_same_view (fun p => p.2.2 == some v) hrefs).symm
  · intro ref' href' v hv
    obtain ⟨ref, href, hname, hscope, hresolved⟩ := hold ref' href'
    rw [← hname, ← hscope]
    exact h.resolved ref href v (hresolved.trans hv)

/-- A reference refers to a variable just when the variable lists it. -/
theorem Linked.resolved_iff (h : g.Linked) (i v : Nat) :
    (∃ ref, g.references[i]? = some ref ∧ ref.resolved = some v) ↔
      ∃ var, g.vars[v]? = some var ∧ i ∈ var.references := by
  constructor
  · rintro ⟨ref, href, hv⟩
    obtain ⟨var, hvar, -⟩ := h.resolved ref (Array.mem_of_getElem? href) v hv
    refine ⟨var, hvar, ?_⟩
    rw [h.occurrences v var hvar]
    exact mem_numbers.mpr ⟨ref, href, beq_iff_eq.mpr hv⟩
  · rintro ⟨var, hvar, hi⟩
    rw [h.occurrences v var hvar] at hi
    obtain ⟨ref, href, hv⟩ := mem_numbers.mp hi
    exact ⟨ref, href, beq_iff_eq.mp hv⟩

/-- A scope lists just the entries that name it. -/
theorem listed_iff {α : Type} {xs : Array α} {scope : α → Nat} {list : Scope → List Nat}
    (hplaced : ∀ x ∈ xs, scope x < g.scopes.size)
    (hlist : ∀ (id : Nat) (s : Scope), g.scopes[id]? = some s →
      list s = numbers (fun x => scope x == id) xs) (i id : Nat) :
    (∃ s, g.scopes[id]? = some s ∧ (list s).count i = 1) ↔
      ∃ x, xs[i]? = some x ∧ scope x = id := by
  constructor
  · rintro ⟨s, hs, hcount⟩
    rw [hlist id s hs] at hcount
    obtain ⟨x, hx, hscope⟩ := count_numbers.mp hcount
    exact ⟨x, hx, beq_iff_eq.mp hscope⟩
  · rintro ⟨x, hx, rfl⟩
    -- The scope that an entry names is there, so that it can list the entry.
    have hs := Array.getElem?_eq_getElem (hplaced x (Array.mem_of_getElem? hx))
    refine ⟨_, hs, ?_⟩
    rw [hlist _ _ hs]
    exact count_numbers.mpr ⟨x, hx, beq_self_eq_true _⟩

theorem Linked.within_of_sees (h : g.Linked) (hsees : g.Sees scope name v) :
    ∃ var, g.vars[v]? = some var ∧ var.name = name ∧ g.within scope var.scope = true := by
  obtain ⟨var, hvar, hname, hinside⟩ := hsees
  exact ⟨var, hvar, hname, hinside.within h.rooted⟩

theorem exists_scope_of_lookup? (h : g.lookup? name ids = some v) :
    ∃ id ∈ ids, ∃ s, g.scopes[id]? = some s ∧ v ∈ s.vars := by
  induction ids with
  | nil => simp [lookup?] at h
  | cons id ids ih =>
    rw [lookup?] at h
    split at h
    · simp at h
    · rename_i s hs
      -- The search ends where the name is declared, or goes on in the scopes around.
      split at h
      · rename_i found hfound
        cases h
        exact ⟨id, by simp, s, hs, mem_reverse.mp (mem_of_find?_eq_some hfound)⟩
      · split at h
        · simp at h
        · obtain ⟨id', hid', hrest⟩ := ih h
          exact ⟨id', .tail _ hid', hrest⟩

theorem Linked.sees_of_lookup? (h : g.Linked) (hchain : g.Chain (id :: ids))
    (hv : g.lookup? name (id :: ids) = some v) : g.Sees id name v := by
  obtain ⟨outer, houter, s, hs, hmem⟩ := exists_scope_of_lookup? hv
  rw [h.declares outer s hs] at hmem
  obtain ⟨var, hvar, hscope⟩ := mem_numbers.mp hmem
  obtain ⟨decl, hknown⟩ := known?_of_lookup? hv
  have hname : var.name = name := by
    rw [known?, hvar, Option.map_some] at hknown
    exact congrArg Prod.fst (Option.some.inj hknown)
  have hscope : var.scope = outer := by simpa using hscope
  exact ⟨var, hvar, hname, hscope ▸ hchain.inside houter⟩

end ScopeGraph

end LuaLint
