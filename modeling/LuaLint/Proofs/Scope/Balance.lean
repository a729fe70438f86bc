import LuaLint.Scope.Resolve

/-!
# Scopes that open and close

Balanced events close each scope that they open, and no other. Whatever is open before them is open
while they take place, and is what is open after them.

Main statements: `Balanced.scopes_run`, `Balanced.suffix_run`, `Balanced.run_induction`.
-/

namespace LuaLint

open List

/-! ## Balanced events -/

/-- The event opens no scope and closes none. -/
def ScopeEvent.Plain : ScopeEvent → Prop
  | .enter _ _ => False
  | .leave => False
  | _ => True

/-- Events that close each scope they open, and no other. -/
inductive Balanced : List ScopeEvent → Prop where
  | nil : Balanced []
  | plain {e : ScopeEvent} : e.Plain → Balanced [e]
  | append {es es' : List ScopeEvent} : Balanced es → Balanced es' → Balanced (es ++ es')
  | scope {es : List ScopeEvent} (kind : ScopeKind) (span : Span) :
      Balanced es → Balanced (.enter kind span :: (es ++ [.leave]))

/-! ## Open scopes -/

namespace Resolver

theorem run_append (r : Resolver) (es es' : List ScopeEvent) :
    r.run (es ++ es') = (r.run es).run es' :=
  foldl_append

/-- A call statement makes a record and marks references. What holds before it, and is kept by both,
holds after it. -/
theorem call_induction {P : Resolver → Prop} {r : Resolver} (c : CallEvent) (h : P r)
    (hrecord : ∀ id, P { r with graph :=
      { r.graph with calls := r.graph.calls.push ⟨c.path, id, c.span⟩ } })
    (hmark : ∀ (r : Resolver) (id : Nat) (mark : CallArgument), P r → P { r with graph :=
      { r.graph with references := r.graph.references.modify id fun ref =>
        { ref with passedTo := some mark } } }) : P (r.call c) := by
  have hmarks : ∀ (places : List (Option Span)) (r : Resolver) (call arg : Nat), P r →
      P (r.markArguments call arg places) := by
    intro places
    induction places with
    | nil => exact fun _ _ _ hr => hr
    | cons place places ih =>
      intro r call arg hr
      rw [markArguments]
      apply ih
      split
      · exact hr
      · exact hmark r _ _ hr
  unfold call
  split
  · exact h
  · exact hmarks _ _ _ _ (hrecord _)

theorem scopes_step {e : ScopeEvent} (h : e.Plain) (r : Resolver) :
    (r.step e).scopes = r.scopes := by
  cases e with
  | enter kind span => exact h.elim
  | leave => exact h.elim
  | declare d => rfl
  | use u => rfl
  | assign u =>
    simp only [step, assign]
    split <;> rfl
  | extend u definition =>
    simp only [step, extend]
    split <;> rfl
  | call c =>
    exact call_induction (P := fun r' => r'.scopes = r.scopes) c rfl (fun _ => rfl) fun _ _ _ h => h

end Resolver

namespace Balanced

open LuaLint.Resolver

variable {es : List ScopeEvent}

/-- Balanced events leave the open scopes as they were. -/
theorem scopes_run (h : Balanced es) (r : Resolver) : (r.run es).scopes = r.scopes := by
  induction h generalizing r with
  | nil => rfl
  | plain he => exact scopes_step he r
  | append _ _ ih ih' => rw [run_append, ih', ih]
  | scope kind span _ ih =>
    -- The last event closes the scope that the first one opens.
    have hinner := ih (r.enter kind span)
    change (((r.enter kind span).run (_ ++ [.leave])).scopes) = _
    rw [run_append]
    exact congrArg tail hinner

/-- They never close what was open before. -/
theorem suffix_run (h : Balanced es) (r : Resolver) {before after : List ScopeEvent}
    (hsplit : es = before ++ after) : r.scopes <:+ (r.run before).scopes := by
  induction h generalizing r before after with
  | nil =>
    obtain ⟨rfl, -⟩ := append_eq_nil_iff.mp hsplit.symm
    exact suffix_refl _
  | plain he =>
    rcases append_eq_singleton_iff.mp hsplit.symm with ⟨rfl, -⟩ | ⟨rfl, -⟩
    · exact suffix_refl _
    · exact (scopes_step he r) ▸ suffix_refl _
  | append hes _ ih ih' =>
    rcases append_eq_append_iff.mp hsplit with ⟨more, rfl, hmore⟩ | ⟨more, hes', -⟩
    · rw [run_append, ← hes.scopes_run r]
      exact ih' _ hmore
    · exact ih r hes'
  | @scope es kind span hes ih =>
    -- Inside the new scope the enclosing ones stay open.
    have hinner : ∀ {between rest : List ScopeEvent}, es = between ++ rest →
        r.scopes <:+ ((r.enter kind span).run between).scopes := fun heq =>
      (suffix_cons _ _).trans (ih (r.enter kind span) heq)
    cases before with
    | nil => exact suffix_refl _
    | cons e before =>
      injection hsplit with hhead htail
      subst hhead
      rcases append_eq_append_iff.mp htail with ⟨more, rfl, hmore⟩ | ⟨more, hes', -⟩
      · -- Either all but the last event have taken place, or the last one too.
        rcases append_eq_singleton_iff.mp hmore.symm with ⟨rfl, -⟩ | ⟨rfl, -⟩
        · rw [append_nil]
          exact hinner es.append_nil.symm
        · have hclosed := (hes.scope kind span).scopes_run r
          exact hclosed ▸ suffix_refl _
      · exact hinner hes'

/-- What single events keep while a scope is open is kept by balanced ones. -/
theorem run_induction {P : Resolver → Prop} (h : Balanced es)
    (hplain : ∀ (r : Resolver) (e : ScopeEvent), e.Plain → r.scopes ≠ [] → P r → P (r.step e))
    (henter : ∀ (r : Resolver) (kind : ScopeKind) (span : Span), r.scopes ≠ [] → P r →
      P (r.enter kind span)) (hleave : ∀ r : Resolver, P r → P r.leave) {r : Resolver}
    (hopen : r.scopes ≠ []) (hr : P r) : P (r.run es) := by
  induction h generalizing r with
  | nil => exact hr
  | plain he => exact hplain r _ he hopen hr
  | append hes _ ih ih' =>
    rw [run_append]
    exact ih' (by rwa [hes.scopes_run]) (ih hopen hr)
  | scope kind span _ ih =>
    change P ((r.enter kind span).run (_ ++ [.leave]))
    rw [run_append]
    exact hleave _ (ih (cons_ne_nil _ _) (henter r kind span hopen hr))

end Balanced

end LuaLint
