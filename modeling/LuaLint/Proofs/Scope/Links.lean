import LuaLint.Proofs.Scope.Linked

/-!
# Name resolution builds linked graphs

Every event keeps a graph under construction linked, as long as some scope is open, which is so
from the first event of a chunk to the last.

Main statements: `Resolver.Linked.step`, `Resolver.Linked.run`, `Chunk.resolve_links`.
-/

namespace LuaLint

open Resolver

variable {name : Bytes} {v : Nat} {r' : Resolver}

/-! ## Linked resolvers -/

/-- The graph is linked and the open scopes lie in each other. -/
structure Resolver.Linked (r : Resolver) : Prop where
  /-- Lists agree with what entries name. -/
  graph : r.graph.Linked
  /-- The open scopes are those around the innermost one. -/
  chain : r.graph.Chain r.scopes

namespace Resolver.Linked

open LuaLint.ScopeGraph

variable {r : Resolver}

theorem scopes_eq_cons (hopen : r.scopes ≠ []) : r.scopes = r.current :: r.scopes.tail := by
  obtain ⟨id, ids, hscopes⟩ := List.exists_cons_of_ne_nil hopen
  simp [current, hscopes]

theorem sees_of_lookup? (h : r.Linked) (hopen : r.scopes ≠ []) (hv : r.lookup? name = some v) :
    r.graph.Sees r.current name v := by
  have hchain := h.chain
  rw [scopes_eq_cons hopen] at hchain
  rw [lookup?, scopes_eq_cons hopen] at hv
  exact h.graph.sees_of_lookup? hchain hv

theorem current_lt (h : r.Linked) (hopen : r.scopes ≠ []) : r.current < r.graph.scopes.size := by
  have hchain := h.chain
  rw [scopes_eq_cons hopen] at hchain
  obtain ⟨⟨s, hs, -⟩, -⟩ := hchain
  exact (Array.getElem?_eq_some_iff.mp hs).1

/-! ## Events -/

theorem revise (h : r.Linked) (hscopes : r'.scopes = r.scopes) (hrev : r.graph.Revises r'.graph)
    (hgraph : r'.graph.Linked) : r'.Linked :=
  ⟨hgraph, hscopes ▸ h.chain.grows hrev.grows⟩

theorem exists_of_getElem?_use {u : Use} {var' : Variable}
    (h : (r.use u).graph.vars[v]? = some var') :
    ∃ var, r.graph.vars[v]? = some var ∧ var' =
      if r.lookup? u.name = some v then
        { var with references := var.references ++ [r.graph.references.size] }
      else var := by
  simp only [use] at h
  cases hlookup : r.lookup? u.name with
  | none =>
    simp only [hlookup] at h
    exact ⟨var', h, by simp⟩
  | some target =>
    simp only [hlookup] at h
    obtain ⟨var, hvar, heq⟩ := exists_of_getElem?_modify h
    exact ⟨var, hvar, by simpa using heq⟩

theorem revises_use (r : Resolver) (u : Use) : r.graph.Revises (r.use u).graph where
  scopes _ := map_getElem?_modify (by intro; rfl) _ _ _
  vars v := by
    simp only [use]
    split
    · rfl
    · exact map_getElem?_modify (by intro; rfl) _ _ _

theorem use (h : r.Linked) (hopen : r.scopes ≠ []) (u : Use) : (r.use u).Linked := by
  refine h.revise rfl (revises_use r u) (h.graph.revise (revises_use r u) ?_ ?_ ?_ ?_)
  · intro ref href
    rcases Array.mem_push.mp href with href | rfl
    · exact h.graph.placed ref href
    · exact h.current_lt hopen
  · -- The new reference has the last number, and only the innermost scope lists it.
    intro id s' hs'
    obtain ⟨s, hs, rfl⟩ := exists_of_getElem?_modify hs'
    refine Eq.trans ?_ (numbers_push _ _ _).symm
    rw [← h.graph.uses id s hs]
    by_cases hid : r.current = id <;> simp [hid]
  · -- Likewise only the variable that the name refers to lists it.
    intro v var' hvar'
    obtain ⟨var, hvar, rfl⟩ := exists_of_getElem?_use hvar'
    refine Eq.trans ?_ (numbers_push _ _ _).symm
    rw [← h.graph.occurrences v var hvar]
    by_cases hv : r.lookup? u.name = some v <;> simp [hv]
  · intro ref href v hv
    rcases Array.mem_push.mp href with href | rfl
    · exact h.graph.resolved ref href v hv
    · exact h.sees_of_lookup? hopen hv

theorem grows_declare (r : Resolver) (d : Declaration) (hoisted : Bool) :
    r.graph.Grows (r.declare d hoisted).graph where
  parent id s hs := by
    refine (map_getElem?_modify (by intro; rfl) _ _ _).trans ?_
    rw [hs, Option.map_some]
  var v var hvar := by
    simp only [Resolver.declare]
    rw [getElem?_push_of_some hvar, Option.map_some]

theorem declare (h : r.Linked) (hopen : r.scopes ≠ []) (d : Declaration) (hoisted : Bool) :
    (r.declare d hoisted).Linked where
  chain := h.chain.grows (grows_declare r d hoisted)
  graph := by
    have hsize : (r.declare d hoisted).graph.scopes.size = r.graph.scopes.size :=
      Array.size_modify
    constructor
    case rooted =>
      intro id s' hs'
      obtain ⟨s, hs, rfl⟩ := exists_of_getElem?_modify hs'
      have hroot := h.graph.rooted id s hs
      split <;> exact hroot
    case placed =>
      rw [hsize]
      exact h.graph.placed
    case housed =>
      intro var hvar
      rw [hsize]
      rcases Array.mem_push.mp hvar with hvar | rfl
      · exact h.graph.housed var hvar
      · exact h.current_lt hopen
    case uses =>
      intro id s' hs'
      obtain ⟨s, hs, rfl⟩ := exists_of_getElem?_modify hs'
      have huses := h.graph.uses id s hs
      split <;> exact huses
    case declares =>
      -- The new variable has the last number, and only the innermost scope lists it.
      intro id s' hs'
      obtain ⟨s, hs, rfl⟩ := exists_of_getElem?_modify hs'
      refine Eq.trans ?_ (numbers_push _ _ _).symm
      rw [← h.graph.declares id s hs]
      by_cases hid : r.current = id <;> simp [hid]
    case occurrences =>
      intro v var hvar
      rcases getElem?_push_cases hvar with hvar | ⟨rfl, rfl⟩
      · exact h.graph.occurrences v var hvar
      · -- No reference can refer to a variable that is not yet there.
        refine (numbers_eq_nil fun ref href => ?_).symm
        refine beq_eq_false_iff_ne.mpr fun hv => ?_
        exact Nat.lt_irrefl _ (h.graph.resolved ref href _ hv).lt
    case resolved =>
      intro ref href v hv
      exact (h.graph.resolved ref href v hv).grows (grows_declare r d hoisted)
    case shadowed =>
      intro v var hvar w hw
      rcases getElem?_push_cases hvar with hvar | ⟨rfl, rfl⟩
      · obtain ⟨hlt, hsees⟩ := h.graph.shadowed v var hvar w hw
        exact ⟨hlt, hsees.grows (grows_declare r d hoisted)⟩
      · have hsees := h.sees_of_lookup? hopen hw
        exact ⟨hsees.lt, hsees.grows (grows_declare r d hoisted)⟩

theorem exists_last_declare (r : Resolver) (d : Declaration) (hoisted : Bool) :
    ∃ last, (r.declare d hoisted).graph.vars[(r.declare d hoisted).graph.vars.size - 1]? =
        some last ∧
      last.name = d.name ∧ last.scope = r.current ∧ last.references = [] := by
  have hlast : (r.declare d hoisted).graph.vars.size - 1 = r.graph.vars.size := by
    simp [Resolver.declare]
  rw [hlast]
  exact ⟨_, Array.getElem?_push_size, rfl, rfl, rfl⟩

theorem of_unclaimed {g : ScopeGraph} {scope : Nat} {ref : Reference}
    (h : unclaimed g name scope ref = true) :
    ref.name = name ∧ ref.resolved = none ∧ g.Inside ref.scope scope := by
  simp only [unclaimed, Bool.and_eq_true, beq_iff_eq, Option.isNone_iff_eq_none] at h
  exact ⟨h.1.1.2, h.1.2, inside_of_within h.2⟩

theorem revises_claim (r : Resolver) (name : Bytes) : r.graph.Revises (r.claim name).graph where
  scopes _ := rfl
  vars _ := map_getElem?_modify (by intro; rfl) _ _ _

section

variable (h : r.Linked)
include h

/-- The latest variable may take over reads of its name that refer to nothing, as long as nothing
refers to it. -/
theorem claim {last : Variable} (hlast : r.graph.vars[r.graph.vars.size - 1]? = some last)
    (hname : last.name = name) (hscope : last.scope = r.current) (hunused : last.references = []) :
    (r.claim name).Linked := by
  -- A reference to the variable would be on its list, which is empty.
  have hnone : ∀ ref ∈ r.graph.references, ref.resolved ≠ some (r.graph.vars.size - 1) := by
    intro ref href hv
    obtain ⟨i, hi⟩ := Array.mem_iff_getElem?.mp href
    have hmem : i ∈ last.references := by
      rw [h.graph.occurrences _ _ hlast]
      exact mem_numbers.mpr ⟨ref, hi, beq_iff_eq.mpr hv⟩
    rw [hunused] at hmem
    exact absurd hmem List.not_mem_nil
  refine h.revise rfl (revises_claim r name) (h.graph.revise (revises_claim r name) ?_ ?_ ?_ ?_)
  · intro ref href
    obtain ⟨old, hold, rfl⟩ := Array.mem_map.mp href
    have hplaced := h.graph.placed old hold
    split <;> exact hplaced
  · intro id s hs
    refine (h.graph.uses id s hs).trans (numbers_map fun ref _ => ?_).symm
    split <;> rfl
  · intro v var' hvar'
    obtain ⟨var, hvar, rfl⟩ := exists_of_getElem?_modify hvar'
    by_cases hv : r.graph.vars.size - 1 = v
    · -- The list of the variable is that of the reads it takes over.
      rw [if_pos hv]
      refine (numbers_map fun ref href => ?_).symm
      have hother := hnone ref href
      rw [hv] at hother
      split <;> simp_all
    · -- No other variable loses a reference, since what is taken over referred to none.
      rw [if_neg hv]
      refine (h.graph.occurrences v var hvar).trans (numbers_map fun ref _ => ?_).symm
      split
      · have hfree : ref.resolved = none := (of_unclaimed (by assumption)).2.1
        simp [hfree, hv]
      · rfl
  · intro ref href v hv
    obtain ⟨old, hold, rfl⟩ := Array.mem_map.mp href
    by_cases hmissing : unclaimed r.graph name r.current old = true
    · -- Only reads inside of the innermost scope are taken over, which is that of the variable.
      simp only [if_pos hmissing, Option.some.injEq] at hv ⊢
      obtain ⟨hold_name, -, hinside⟩ := of_unclaimed hmissing
      exact hv ▸ ⟨last, hlast, hname.trans hold_name.symm, hscope ▸ hinside⟩
    · simp only [if_neg hmissing] at hv ⊢
      exact h.graph.resolved old hold v hv

theorem assign (hopen : r.scopes ≠ []) (u : Use) : (r.assign u).Linked := by
  have hwritten := h.use hopen u
  simp only [Resolver.assign]
  split
  · exact hwritten
  · -- The variable that is declared after the fact is the last one, and new.
    have hdeclared := hwritten.declare hopen ⟨u.name, u.span, u.span, false, none, .unknown⟩ true
    obtain ⟨last, hlast, hname, hscope, hunused⟩ := exists_last_declare (r.use u)
      ⟨u.name, u.span, u.span, false, none, .unknown⟩ true
    exact hdeclared.claim hlast hname hscope hunused

theorem of_same_views (hopen : r'.scopes = r.scopes) (hscopes : r'.graph.scopes = r.graph.scopes)
    (hvars : ∀ v : Nat,
      (r'.graph.vars[v]?).map (fun w => (w.name, w.scope, w.shadowed, w.references)) =
        (r.graph.vars[v]?).map fun w => (w.name, w.scope, w.shadowed, w.references))
    (hrefs : ∀ i : Nat,
      (r'.graph.references[i]?).map (fun ref => (ref.name, ref.scope, ref.resolved)) =
        (r.graph.references[i]?).map fun ref => (ref.name, ref.scope, ref.resolved)) :
    r'.Linked := by
  obtain ⟨hrev, hgraph⟩ := h.graph.of_same_views hscopes hvars hrefs
  exact h.revise hopen hrev hgraph

theorem extend (hopen : r.scopes ≠ []) (u : Use) (definition : Span) :
    (r.extend u definition).Linked := by
  have hwritten := h.use hopen u
  simp only [Resolver.extend]
  split
  · exact hwritten
  · exact hwritten.of_same_views rfl rfl (fun _ => map_getElem?_modify (by intro; rfl) _ _ _)
      fun _ => rfl

theorem call (c : CallEvent) : (r.call c).Linked := by
  refine call_induction c h (fun _ => ?_) fun r' id mark hr => ?_
  · exact h.of_same_views rfl rfl (fun _ => rfl) fun _ => rfl
  · exact hr.of_same_views rfl rfl (fun _ => rfl) fun _ => map_getElem?_modify (by intro; rfl) _ _ _

theorem enter (kind : ScopeKind) (span : Span) (hfirst : r.scopes = [] → r.graph.scopes.size = 0) :
    (r.enter kind span).Linked := by
  have hgrows : r.graph.Grows (r.enter kind span).graph := by
    refine ⟨fun id s hs => ?_, fun v var hvar => ?_⟩
    · rw [Resolver.enter, getElem?_push_of_some hs, Option.map_some]
    · simp only [Resolver.enter, hvar, Option.map_some]
  have hold : r.graph.scopes.size < (r.enter kind span).graph.scopes.size := by
    simp [Resolver.enter]
  refine ⟨?_, ⟨_, Array.getElem?_push_size, rfl⟩, h.chain.grows hgrows⟩
  constructor
  case rooted =>
    intro id s hs
    rcases getElem?_push_cases hs with hs | ⟨rfl, rfl⟩
    · exact h.graph.rooted id s hs
    -- The parent of a new scope is the current one, unless it is the first.
    · by_cases hopen : r.scopes = []
      · exact .inl ⟨hfirst hopen, by simp [hopen]⟩
      · refine .inr ⟨r.current, h.current_lt hopen, ?_⟩
        rw [scopes_eq_cons hopen]
        rfl
  case placed => exact fun ref href => Nat.lt_trans (h.graph.placed ref href) hold
  case housed => exact fun var hvar => Nat.lt_trans (h.graph.housed var hvar) hold
  case uses =>
    intro id s hs
    rcases getElem?_push_cases hs with hs | ⟨rfl, rfl⟩
    · exact h.graph.uses id s hs
    · -- Nothing names a scope that is not yet there.
      refine (numbers_eq_nil fun ref href => ?_).symm
      exact beq_eq_false_iff_ne.mpr (Nat.ne_of_lt (h.graph.placed ref href))
  case declares =>
    intro id s hs
    rcases getElem?_push_cases hs with hs | ⟨rfl, rfl⟩
    · exact h.graph.declares id s hs
    · refine (numbers_eq_nil fun var hvar => ?_).symm
      exact beq_eq_false_iff_ne.mpr (Nat.ne_of_lt (h.graph.housed var hvar))
  case occurrences => exact h.graph.occurrences
  case resolved => exact fun ref href v hv => (h.graph.resolved ref href v hv).grows hgrows
  case shadowed =>
    intro v var hvar w hw
    obtain ⟨hlt, hsees⟩ := h.graph.shadowed v var hvar w hw
    exact ⟨hlt, hsees.grows hgrows⟩

theorem leave : r.leave.Linked := by
  refine ⟨h.graph, ?_⟩
  have hchain := h.chain
  rw [Resolver.leave]
  cases hscopes : r.scopes with
  | nil => trivial
  | cons id ids =>
    rw [hscopes] at hchain
    exact hchain.2

end

/-! ## Runs -/

/-- Every event keeps a graph linked. -/
theorem step (h : r.Linked) (hopen : r.scopes ≠ []) {e : ScopeEvent} (he : e.Plain) :
    (r.step e).Linked := by
  cases e with
  | enter kind span => exact he.elim
  | leave => exact he.elim
  | declare d => exact h.declare hopen d false
  | use u => exact h.use hopen u
  | assign u => exact h.assign hopen u
  | extend u definition => exact h.extend hopen u definition
  | call c => exact h.call c

/-- So do balanced events, since a scope stays open. -/
theorem run (h : r.Linked) (hopen : r.scopes ≠ []) {es : List ScopeEvent} (hes : Balanced es) :
    (r.run es).Linked := by
  refine hes.run_induction ?_ ?_ ?_ hopen h
  · exact fun r e he hopen hr => hr.step hopen he
  · exact fun r kind span hopen hr => hr.enter kind span fun hnil => absurd hnil hopen
  · exact fun r hr => hr.leave

theorem start : Resolver.start.Linked where
  graph := by constructor <;> simp [Rooted, Resolver.start, empty]
  chain := trivial

end Resolver.Linked

theorem Chunk.linked_resolve (c : Chunk) : c.resolve.Linked := by
  have hfile := Resolver.Linked.start.enter .file ⟨0, c.size⟩ fun _ => rfl
  have hrun := (hfile.run (List.cons_ne_nil _ _) c.block.balanced).leave
  have hevents : c.events = [.enter .file ⟨0, c.size⟩] ++ c.block.events ++ [.leave] := rfl
  rw [Chunk.resolve, hevents, run_append, run_append]
  exact hrun.graph

/-- The links of a resolved chunk. A reference refers to a variable just when the variable lists it,
and a scope lists exactly the references and variables that name it, all of them once and in order.
A scope other than the first lies in an earlier one. A reference has the name of its variable and
lies in the scope of its declaration, and the same holds of a variable and the one that it hides. -/
theorem Chunk.resolve_links (c : Chunk) :
    (∀ i v : Nat, (∃ ref, c.resolve.references[i]? = some ref ∧ ref.resolved = some v) ↔
      ∃ var, c.resolve.vars[v]? = some var ∧ i ∈ var.references) ∧
    (∀ var ∈ c.resolve.vars, var.references.Pairwise (· < ·)) ∧
    (∀ i id : Nat, (∃ s, c.resolve.scopes[id]? = some s ∧ s.references.count i = 1) ↔
      ∃ ref, c.resolve.references[i]? = some ref ∧ ref.scope = id) ∧
    (∀ v id : Nat, (∃ s, c.resolve.scopes[id]? = some s ∧ s.vars.count v = 1) ↔
      ∃ var, c.resolve.vars[v]? = some var ∧ var.scope = id) ∧
    (∀ s ∈ c.resolve.scopes, s.references.Pairwise (· < ·) ∧ s.vars.Pairwise (· < ·)) ∧
    (∀ (id : Nat) (s : Scope), c.resolve.scopes[id]? = some s → id ≠ 0 →
      ∃ parent < id, s.parent = some parent) ∧
    (∀ ref ∈ c.resolve.references, ∀ v, ref.resolved = some v →
      ∃ var, c.resolve.vars[v]? = some var ∧ var.name = ref.name ∧
        c.resolve.within ref.scope var.scope = true) ∧
    (∀ (v : Nat) (var : Variable), c.resolve.vars[v]? = some var → ∀ w, var.shadowed = some w →
      w < v ∧ ∃ hidden, c.resolve.vars[w]? = some hidden ∧ hidden.name = var.name ∧
        c.resolve.within var.scope hidden.scope = true) := by
  have h := c.linked_resolve
  refine ⟨h.resolved_iff, fun var hvar => ?_, ScopeGraph.listed_iff h.placed h.uses,
    ScopeGraph.listed_iff h.housed h.declares, fun s hs => ?_, fun id s hs hid => ?_,
    fun ref href v hv => h.within_of_sees (h.resolved ref href v hv), fun v var hvar w hw => ?_⟩
  · obtain ⟨v, hv⟩ := Array.mem_iff_getElem?.mp hvar
    exact h.occurrences v var hv ▸ pairwise_numbers _ _
  · obtain ⟨id, hid⟩ := Array.mem_iff_getElem?.mp hs
    exact ⟨h.uses id s hid ▸ pairwise_numbers _ _, h.declares id s hid ▸ pairwise_numbers _ _⟩
  · exact (h.rooted id s hs).resolve_left fun hroot => hid hroot.1
  · obtain ⟨hlt, hsees⟩ := h.shadowed v var hvar w hw
    exact ⟨hlt, h.within_of_sees hsees⟩

end LuaLint
