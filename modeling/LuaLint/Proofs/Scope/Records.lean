import LuaLint.Proofs.Scope.History

/-!
# The records of a scope graph

Name resolution invents nothing: each variable and call in a scope graph comes from one of the
events that were played, and the ranges that it records are those of the event. Later events may add
to a variable, but the name and the place of it stay, and so does the definition that it began with.

Main statements: `Resolver.Records.step`, `Chunk.records_resolve`.
-/

namespace LuaLint

/-! ## What events bring -/

/-- The declaration that an event makes, or may make. A write to a name that is not declared
declares it. -/
def ScopeEvent.declaration? : ScopeEvent → Option Declaration
  | .declare d => some d
  | .assign u => some ⟨u.name, u.span, u.span, false, none, .unknown⟩
  | .enter _ _ | .leave | .use _ | .extend _ _ | .call _ => none

def ScopeEvent.definition? : ScopeEvent → Option Span
  | .extend _ definition => some definition
  | e => e.declaration?.map Declaration.definition

theorem ScopeEvent.definition?_of_declaration? {e : ScopeEvent} {d : Declaration}
    (h : e.declaration? = some d) : e.definition? = some d.definition := by
  cases e with
  | extend u definition => cases h
  | declare d => cases h; rfl
  | assign u => cases h; rfl
  | enter kind span => cases h
  | leave => cases h
  | use u => cases h
  | call c => cases h

/-- The variable is declared by one of some events, and all its definitions are brought by them. -/
structure Variable.ComesFrom (es : List ScopeEvent) (v : Variable) : Prop where
  declared : ∃ e ∈ es, ∃ d, e.declaration? = some d ∧ v.identifier = d.identifier ∧
    v.value = d.value ∧ v.definitions.head? = some d.definition
  defined : ∀ definition ∈ v.definitions, ∃ e ∈ es, e.definition? = some definition
  /-- Nothing is known of the value of a global. -/
  unknown : v.hoisted = true → v.value = .unknown

theorem Variable.ComesFrom.mono {es es' : List ScopeEvent} {v : Variable} (h : v.ComesFrom es)
    (hsub : es ⊆ es') : v.ComesFrom es' := by
  obtain ⟨e, he, hd⟩ := h.declared
  refine ⟨⟨e, hsub he, hd⟩, fun definition hdef => ?_, h.unknown⟩
  obtain ⟨e, he, hdef⟩ := h.defined definition hdef
  exact ⟨e, hsub he, hdef⟩

/-- The entries of a graph under construction come from some events. -/
structure Resolver.Records (r : Resolver) (es : List ScopeEvent) : Prop where
  vars : ∀ v ∈ r.graph.vars, v.ComesFrom es
  calls : ∀ c ∈ r.graph.calls, ∃ e, .call e ∈ es ∧ c.span = e.span

/-! ## One event -/

theorem mem_modify {α : Type} {xs : Array α} {f : α → α} {i : Nat} {y : α} (h : y ∈ xs.modify i f) :
    ∃ x ∈ xs, y = x ∨ y = f x := by
  obtain ⟨j, hj⟩ := Array.mem_iff_getElem?.mp h
  obtain ⟨x, hx, hy⟩ := exists_of_getElem?_modify hj
  refine ⟨x, Array.mem_of_getElem? hx, ?_⟩
  split at hy
  · exact .inr hy
  · exact .inl hy

namespace Resolver.Records

variable {r : Resolver} {es : List ScopeEvent} {e : ScopeEvent}

section

variable (h : r.Records es)
include h

theorem mono (e : ScopeEvent) : r.Records (es ++ [e]) where
  vars v hv := (h.vars v hv).mono (List.subset_append_left _ _)
  calls c hc := by
    obtain ⟨e, he, hspan⟩ := h.calls c hc
    exact ⟨e, List.mem_append_left _ he, hspan⟩

theorem declare {d : Declaration} (he : e ∈ es) (hd : e.declaration? = some d) {hoisted : Bool}
    (hvalue : hoisted = true → d.value = .unknown) : (r.declare d hoisted).Records es where
  vars v hv := by
    rcases Array.mem_push.mp hv with hv | rfl
    · exact h.vars v hv
    · refine ⟨⟨e, he, d, hd, rfl, rfl, rfl⟩, fun definition hdef => ?_, hvalue⟩
      rw [List.mem_singleton.mp hdef]
      exact ⟨e, he, ScopeEvent.definition?_of_declaration? hd⟩
  calls := h.calls

theorem use (u : Use) : (r.use u).Records es where
  vars v hv := by
    have hvars : ∃ w ∈ r.graph.vars, v = w ∨ ∃ ids, v = { w with references := ids } := by
      simp only [Resolver.use] at hv
      split at hv
      · exact ⟨v, hv, .inl rfl⟩
      · obtain ⟨w, hw, heq⟩ := mem_modify hv
        exact ⟨w, hw, heq.imp_right fun heq => ⟨_, heq⟩⟩
    obtain ⟨w, hw, heq⟩ := hvars
    have hw := h.vars w hw
    -- What a variable is referred to by is not part of where it comes from.
    rcases heq with rfl | ⟨ids, rfl⟩
    · exact hw
    · exact ⟨hw.declared, hw.defined, hw.unknown⟩
  calls := h.calls

theorem claim (name : Bytes) : (r.claim name).Records es where
  vars v hv := by
    simp only [Resolver.claim] at hv
    obtain ⟨w, hw, rfl | rfl⟩ := mem_modify hv
    · exact h.vars v hw
    · have hw := h.vars w hw
      exact ⟨hw.declared, hw.defined, hw.unknown⟩
  calls := h.calls

theorem assign (u : Use) : (r.assign u).Records (es ++ [.assign u]) := by
  have huse := (h.mono (.assign u)).use u
  unfold Resolver.assign
  cases r.lookup? u.name with
  | some id => exact huse
  | none => exact (huse.declare (e := .assign u) (by simp) rfl fun _ => rfl).claim u.name

theorem extend (u : Use) (definition : Span) :
    (r.extend u definition).Records (es ++ [.extend u definition]) := by
  have huse := (h.mono (.extend u definition)).use u
  unfold Resolver.extend
  cases r.lookup? u.name with
  | none => exact huse
  | some id =>
    refine ⟨fun v hv => ?_, huse.calls⟩
    simp only at hv
    obtain ⟨w, hw, rfl | rfl⟩ := mem_modify hv
    · exact huse.vars v hw
    · -- The new definition comes after the one that the variable has been declared with.
      have hw := huse.vars w hw
      obtain ⟨e, he, d, hd, hident, hvalue, hhead⟩ := hw.declared
      refine ⟨⟨e, he, d, hd, hident, hvalue, ?_⟩, fun s hs => ?_, hw.unknown⟩
      · simp [hhead]
      · rcases List.mem_append.mp hs with hs | hs
        · exact hw.defined s hs
        · rw [List.mem_singleton.mp hs]
          exact ⟨.extend u definition, by simp, rfl⟩

theorem call (c : CallEvent) : (r.call c).Records (es ++ [.call c]) := by
  have hmore := h.mono (.call c)
  refine call_induction (P := fun r' => r'.Records (es ++ [.call c])) c hmore (fun _ => ?_)
    fun r' id mark hr => ⟨hr.vars, hr.calls⟩
  refine ⟨hmore.vars, fun record hrecord => ?_⟩
  rcases Array.mem_push.mp hrecord with hrecord | rfl
  · exact hmore.calls record hrecord
  · exact ⟨c, by simp, rfl⟩

/-- An event records nothing but its own. -/
theorem step (e : ScopeEvent) : (r.step e).Records (es ++ [e]) := by
  cases e with
  | enter kind span => exact ⟨(h.mono _).vars, (h.mono _).calls⟩
  | leave => exact ⟨(h.mono _).vars, (h.mono _).calls⟩
  | declare d => exact (h.mono _).declare (e := .declare d) (by simp) rfl fun h => by cases h
  | use u => exact (h.mono _).use u
  | assign u => exact h.assign u
  | extend u definition => exact h.extend u definition
  | call c => exact h.call c

end

/-! ## All events -/

theorem run (h : r.Records es) (es' : List ScopeEvent) : (r.run es').Records (es ++ es') := by
  induction es' generalizing r es with
  | nil =>
    rw [List.append_nil]
    exact h
  | cons e es' ih =>
    have hrest := ih (h.step e)
    rwa [List.append_assoc] at hrest

end Resolver.Records

theorem Resolver.records_start : Resolver.start.Records [] where
  vars v hv := by simp [start, ScopeGraph.empty] at hv
  calls c hc := by simp [start, ScopeGraph.empty] at hc

/-- The graph of a chunk records its events only. -/
theorem Chunk.records_resolve (c : Chunk) : (Resolver.start.run c.events).Records c.events :=
  Resolver.records_start.run c.events

end LuaLint
