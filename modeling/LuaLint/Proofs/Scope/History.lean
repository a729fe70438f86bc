import Mathlib.Data.List.Induction
import LuaLint.Proofs.Scope.Links
import LuaLint.Proofs.Scope.Names

/-!
# The history of a scope graph

A scope graph only grows: an event adds at most one variable and one reference, and what an entry
has from the event that made it stays. So entries can be traced to events, and events to the entries
that they made. Of a reference only two things change later on: one that reads an undeclared name
may be given a variable, and an argument of a call statement is marked.

Main statements: `Resolver.exists_split_of_reference`, `Resolver.exists_variable_of_split`,
`Chunk.run_induction`.
-/

namespace LuaLint

open List Resolver

variable {e : ScopeEvent} {v : Variable} {i : Nat} {r : Resolver} {ref ref' : Reference} {u : Use}
  {source : Bytes} {chunk : Chunk}

/-! ## What events add -/

def Reference.bare (ref : Reference) : Reference := { ref with resolved := none, passedTo := none }

namespace Resolver

variable (r : Resolver)

def bareReferences : List Reference := r.graph.references.toList.map Reference.bare

theorem length_bareVars : r.bareVars.length = r.graph.vars.size := by simp [bareVars]

theorem length_bareReferences : r.bareReferences.length = r.graph.references.size := by
  simp [bareReferences]

def newReference? (e : ScopeEvent) : Option Reference :=
  e.use?.map fun u => ⟨u.name, u.span, r.current, u.usage.read, u.usage.write, u.usage.value, none,
    u.usage.indexing, none⟩

variable {r} in
theorem assign_of_newVariable? (hnew : r.newVariable? e = some v.bare)
    (hhoisted : v.hoisted = true) :
    ∃ u, e = .assign u ∧ r.lookup? u.name = none ∧ v.name = u.name ∧ v.scope = r.current ∧
      v.identifier = u.span ∧ v.shadowed = none := by
  cases e with
  | assign u =>
    rw [newVariable?] at hnew
    split at hnew
    · next hnone =>
      simp only [Variable.bare, Option.some.injEq, Variable.mk.injEq] at hnew
      exact ⟨u, rfl, Option.isNone_iff_eq_none.mp hnone, hnew.1.symm, hnew.2.1.symm,
        hnew.2.2.1.symm, hnew.2.2.2.2.1.symm⟩
    · cases hnew
  | declare d =>
    simp only [newVariable?, Variable.bare, Option.some.injEq, Variable.mk.injEq, hhoisted] at hnew
    simp at hnew
  | _ => cases hnew

theorem bareReferences_claim (name : Bytes) : (r.claim name).bareReferences = r.bareReferences := by
  simp only [claim, bareReferences, Array.toList_map, map_map]
  refine map_congr_left fun ref _ => ?_
  simp only [Function.comp]
  split <;> rfl

/-- An event adds its own reference and changes no other, but for marks and links. -/
theorem bareReferences_step (e : ScopeEvent) :
    (r.step e).bareReferences = r.bareReferences ++ (r.newReference? e).toList := by
  -- Writes make the reference of a use before they do anything else.
  have huse : ∀ u, (r.use u).bareReferences = r.bareReferences ++
      (r.newReference? (.use u)).toList := by
    intro u
    simp only [use, bareReferences, Array.toList_push, map_append]
    rfl
  cases e with
  | enter kind span => exact (append_nil _).symm
  | leave => exact (append_nil _).symm
  | declare d => exact (append_nil _).symm
  | use u => exact huse u
  | assign u =>
    refine Eq.trans ?_ (huse u)
    simp only [step, assign]
    split
    · rfl
    · exact bareReferences_claim _ _
  | extend u definition =>
    refine Eq.trans ?_ (huse u)
    simp only [step, extend]
    split <;> rfl
  | call c =>
    refine Eq.trans ?_ (append_nil _).symm
    exact call_induction (P := fun r' => r'.bareReferences = r.bareReferences) c rfl (fun _ => rfl)
      fun _ _ _ h => (map_toList_modify (by intro; rfl) _ _).trans h

def places : List (Option Nat × Span) := r.graph.scopes.toList.map fun s => (s.parent, s.span)

theorem length_places : r.places.length = r.graph.scopes.size := by simp [places]

def newPlace? : ScopeEvent → Option (Option Nat × Span)
  | .enter _ span => some (r.scopes.head?, span)
  | _ => none

theorem places_step (e : ScopeEvent) : (r.step e).places = r.places ++ (r.newPlace? e).toList := by
  have hsame : ∀ {r' : Resolver}, r'.places = r.places → r'.places = r.places ++ [] := fun h =>
    h.trans (append_nil _).symm
  have huse : ∀ u, (r.use u).places = r.places := fun u => map_toList_modify (by intro; rfl) _ _
  cases e with
  | enter kind span => simp [step, enter, places, newPlace?]
  | leave => exact hsame rfl
  | declare d => exact hsame (map_toList_modify (by intro; rfl) _ _)
  | use u => exact hsame (huse u)
  | assign u =>
    refine hsame (Eq.trans ?_ (huse u))
    simp only [step, assign]
    split
    · rfl
    · exact map_toList_modify (by intro; rfl) _ _
  | extend u definition =>
    refine hsame (Eq.trans ?_ (huse u))
    simp only [step, extend]
    split <;> rfl
  | call c =>
    exact hsame (call_induction (P := fun r' => r'.places = r.places) c rfl (fun _ => rfl)
      fun _ _ _ h => h)

/-! ## Entries and the events behind them -/

section Views

variable {α : Type} {view : Resolver → List α} {new : Resolver → ScopeEvent → Option α}
  {before after es : List ScopeEvent} {e : ScopeEvent} {x : α}

variable (hstep : ∀ r e, view (r.step e) = view r ++ (new r e).toList)
include hstep

theorem view_prefix_run (r : Resolver) (es : List ScopeEvent) : view r <+: view (r.run es) := by
  induction es generalizing r with
  | nil => exact prefix_rfl
  | cons e es ih =>
    have hmore : view r <+: view (r.step e) := hstep r e ▸ prefix_append _ _
    exact hmore.trans (ih (r.step e))

theorem view_run_of_lt (r : Resolver) (es : List ScopeEvent) (hi : i < (view r).length) :
    (view (r.run es))[i]? = (view r)[i]? := by
  rw [getElem?_eq_getElem hi]
  exact prefix_iff_getElem?.mp (view_prefix_run hstep r es) i hi

theorem view_run_of_split (hsplit : es = before ++ e :: after)
    (hnew : new (start.run before) e = some x) :
    (view (start.run es))[(view (start.run before)).length]? = some x := by
  have hrun : start.run es = ((start.run before).step e).run after := by
    rw [hsplit, run_append]
    rfl
  have hadded : (view ((start.run before).step e))[(view (start.run before)).length]? = some x := by
    rw [hstep, hnew]
    simp
  rw [hrun, view_run_of_lt hstep _ _ (List.getElem?_eq_some_iff.mp hadded).1, hadded]

theorem exists_split_of_view (hstart : view start = []) (h : (view (start.run es))[i]? = some x) :
    ∃ before e after, es = before ++ e :: after ∧
      (view (start.run before)).length = i ∧ new (start.run before) e = some x := by
  induction es using reverseRec with
  | nil => simp [run, hstart] at h
  | append_singleton es e ih =>
    have hrun : start.run (es ++ [e]) = (start.run es).step e := by
      rw [run_append]
      rfl
    rw [hrun, hstep, getElem?_append] at h
    split at h
    · obtain ⟨before, e', after, rfl, hlength, hnew⟩ := ih h
      exact ⟨before, e', after ++ [e], by simp, hlength, hnew⟩
    · next hge =>
      -- The last event adds one entry at most.
      cases hnew : new (start.run es) e with
      | none => simp [hnew] at h
      | some y =>
        rw [hnew, Option.toList_some, getElem?_singleton] at h
        split at h
        · next heq =>
          cases h
          exact ⟨es, e, [], rfl, by omega, hnew⟩
        · cases h

end Views

theorem exists_scope_run (r : Resolver) (es : List ScopeEvent) {s : Scope}
    (hs : r.graph.scopes[i]? = some s) :
    ∃ s', (r.run es).graph.scopes[i]? = some s' ∧ s'.parent = s.parent ∧ s'.span = s.span := by
  have hi : i < r.places.length := r.length_places ▸ (Array.getElem?_eq_some_iff.mp hs).1
  have hview := view_run_of_lt places_step r es hi
  simp only [places, getElem?_map, Array.getElem?_toList, hs, Option.map_some] at hview
  obtain ⟨s', hs', heq⟩ := Option.map_eq_some_iff.mp hview
  exact ⟨s', hs', Prod.mk.inj heq⟩

theorem references_size_run (r : Resolver) (es : List ScopeEvent) :
    r.graph.references.size ≤ (r.run es).graph.references.size := by
  rw [← length_bareReferences, ← length_bareReferences]
  exact (view_prefix_run bareReferences_step r es).length_le

variable {r} in
theorem references_size_step (hnew : r.newReference? e = some ref) :
    (r.step e).graph.references.size = r.graph.references.size + 1 := by
  rw [← length_bareReferences, ← length_bareReferences, bareReferences_step, hnew]
  simp

section

variable {before after es : List ScopeEvent} {e : ScopeEvent} {i : Nat}

/-- Each variable was made by an event of the run. -/
theorem exists_split_of_variable (hv : (start.run es).graph.vars[i]? = some v) :
    ∃ before e after, es = before ++ e :: after ∧ (start.run before).graph.vars.size = i ∧
      (start.run before).newVariable? e = some v.bare := by
  have hview : (start.run es).bareVars[i]? = some v.bare := by simp [bareVars, hv]
  obtain ⟨before, e, after, hsplit, hlength, hnew⟩ := exists_split_of_view bareVars_step rfl hview
  exact ⟨before, e, after, hsplit, (length_bareVars _).symm.trans hlength, hnew⟩

/-- What an event makes is there in the end. -/
theorem exists_variable_of_split {w : Variable} (hsplit : es = before ++ e :: after)
    (hnew : (start.run before).newVariable? e = some w) :
    ∃ v, (start.run es).graph.vars[(start.run before).graph.vars.size]? = some v ∧ v.bare = w := by
  have hview := view_run_of_split bareVars_step hsplit hnew
  rw [length_bareVars, bareVars, getElem?_map, Array.getElem?_toList] at hview
  exact Option.map_eq_some_iff.mp hview

/-- So was each reference. -/
theorem exists_split_of_reference (href : (start.run es).graph.references[i]? = some ref) :
    ∃ before e after, es = before ++ e :: after ∧ (start.run before).graph.references.size = i ∧
      (start.run before).newReference? e = some ref.bare := by
  have hview : (start.run es).bareReferences[i]? = some ref.bare := by simp [bareReferences, href]
  obtain ⟨before, e, after, hsplit, hlength, hnew⟩ :=
    exists_split_of_view bareReferences_step rfl hview
  exact ⟨before, e, after, hsplit, (length_bareReferences _).symm.trans hlength, hnew⟩

end

end Resolver

theorem splits_cases {α : Type} {es before before' after after' : List α} {e e' : α}
    (hsplit : es = before ++ e :: after) (hsplit' : es = before' ++ e' :: after') :
    before = before' ∧ e = e' ∨ (∃ between, before' = before ++ e :: between) ∨
      ∃ between, before = before' ++ e' :: between := by
  rcases append_eq_append_iff.mp (hsplit.symm.trans hsplit') with
    ⟨more, rfl, hmore⟩ | ⟨more, rfl, hmore⟩
  · cases more with
    | nil => exact .inl ⟨(append_nil _).symm, (cons.inj hmore).1⟩
    | cons first more =>
      obtain ⟨rfl, -⟩ := cons.inj hmore
      exact .inr (.inl ⟨more, rfl⟩)
  · cases more with
    | nil => exact .inl ⟨append_nil _, (cons.inj hmore).1.symm⟩
    | cons first more =>
      obtain ⟨rfl, -⟩ := cons.inj hmore
      exact .inr (.inr ⟨more, rfl⟩)

/-! ## References later on -/

/-- A reference as it stands after some more events. What it has from the use of its name stays, and
so does its variable, unless the name is read and has none yet. -/
structure Reference.Later (ref ref' : Reference) : Prop where
  bare : ref'.bare = ref.bare
  resolved : ref.resolved ≠ none ∨ ref.read = false → ref'.resolved = ref.resolved

namespace Reference.Later

variable {ref ref' ref'' : Reference}

theorem refl (ref : Reference) : ref.Later ref := ⟨rfl, fun _ => rfl⟩

theorem read (h : ref.Later ref') : ref'.read = ref.read := by
  have hread : ref'.bare.read = ref.bare.read := by rw [h.bare]
  exact hread

theorem trans (h : ref.Later ref') (h' : ref'.Later ref'') : ref.Later ref'' := by
  refine ⟨h'.bare.trans h.bare, fun hkept => ?_⟩
  have hsame := h.resolved hkept
  rw [← hsame]
  apply h'.resolved
  rw [hsame, h.read]
  exact hkept

theorem mark (ref : Reference) (place : Option CallArgument) :
    ref.Later { ref with passedTo := place } := ⟨rfl, fun _ => rfl⟩

end Reference.Later

namespace Resolver

/-- The references of a graph are still there in another one. -/
def Retains (r r' : Resolver) : Prop :=
  ∀ (i : Nat) (ref : Reference), r.graph.references[i]? = some ref →
    ∃ ref', r'.graph.references[i]? = some ref' ∧ ref.Later ref'

namespace Retains

variable {r r' r'' : Resolver}

theorem of_eq (h : r'.graph.references = r.graph.references) : r.Retains r' :=
  fun _ ref href => ⟨ref, h ▸ href, .refl ref⟩

theorem trans (h : r.Retains r') (h' : r'.Retains r'') : r.Retains r'' := by
  intro i ref href
  obtain ⟨ref', href', hlater⟩ := h i ref href
  obtain ⟨ref'', href'', hlater'⟩ := h' i ref' href'
  exact ⟨ref'', href'', hlater.trans hlater'⟩

theorem use (r : Resolver) (u : Use) : r.Retains (r.use u) :=
  fun _ ref href => ⟨ref, getElem?_push_of_some href, .refl ref⟩

theorem claim (r : Resolver) (name : Bytes) : r.Retains (r.claim name) := by
  intro i ref href
  simp only [Resolver.claim, Array.getElem?_map, href, Option.map_some, Option.some.injEq,
    exists_eq_left']
  split
  · next hmissing =>
    simp only [unclaimed, Bool.and_eq_true, Option.isNone_iff_eq_none] at hmissing
    refine ⟨rfl, fun hkept => absurd hkept ?_⟩
    simp [hmissing]
  · exact .refl ref

theorem assign (r : Resolver) (u : Use) : (r.use u).Retains (r.assign u) := by
  unfold Resolver.assign
  split
  · exact of_eq rfl
  · exact claim ((r.use u).declare _ true) u.name

theorem extend (r : Resolver) (u : Use) (definition : Span) :
    (r.use u).Retains (r.extend u definition) := by
  unfold Resolver.extend
  split <;> exact of_eq rfl

theorem call (r : Resolver) (c : CallEvent) : r.Retains (r.call c) := by
  refine call_induction (P := r.Retains) c (of_eq rfl) (fun _ => of_eq rfl) fun r' id mark h => ?_
  refine h.trans fun i ref href => ?_
  rw [Array.getElem?_modify, href]
  split
  · exact ⟨_, rfl, .mark ref _⟩
  · exact ⟨ref, rfl, .refl ref⟩

theorem step (r : Resolver) (e : ScopeEvent) : r.Retains (r.step e) := by
  cases e with
  | enter kind span => exact of_eq rfl
  | leave => exact of_eq rfl
  | declare d => exact of_eq rfl
  | use u => exact use r u
  | assign u => exact (use r u).trans (assign r u)
  | extend u definition => exact (use r u).trans (extend r u definition)
  | call c => exact call r c

theorem run (r : Resolver) (es : List ScopeEvent) : r.Retains (r.run es) := by
  induction es generalizing r with
  | nil => exact of_eq rfl
  | cons e es ih => exact (step r e).trans (ih (r.step e))

end Retains

theorem Retains.of_use? (r : Resolver) (hu : e.use? = some u) : (r.use u).Retains (r.step e) := by
  cases e with
  | use u => cases hu; exact of_eq rfl
  | assign u => cases hu; exact assign r u
  | extend u definition => cases hu; exact extend r u definition
  | enter kind span => cases hu
  | leave => cases hu
  | declare d => cases hu
  | call c => cases hu

/-- An event that uses a name leaves a reference behind. Its variable is the one that the name leads
to at the time, unless the name is read and leads to none. -/
theorem exists_reference_of_split {before after es : List ScopeEvent}
    (hsplit : es = before ++ e :: after) (hu : e.use? = some u) :
    ∃ ref, (start.run es).graph.references[(start.run before).graph.references.size]? = some ref ∧
      (start.run before).newReference? e = some ref.bare ∧
      ((start.run before).lookup? u.name ≠ none ∨ u.usage.read = false →
        ref.resolved = (start.run before).lookup? u.name) := by
  have hmade :
      ((start.run before).use u).graph.references[(start.run before).graph.references.size]? =
      some ⟨u.name, u.span, _, u.usage.read, u.usage.write, u.usage.value, _,
        u.usage.indexing, none⟩ :=
    Array.getElem?_push_size
  have hretains := (Retains.of_use? (start.run before) hu).trans (.run _ after)
  obtain ⟨ref, href, hlater⟩ := hretains _ _ hmade
  refine ⟨ref, ?_, ?_, hlater.resolved⟩
  · rw [hsplit, run_append]
    exact href
  · rw [hlater.bare, newReference?, hu]
    rfl

end Resolver

/-! ## The events of a chunk -/

namespace Chunk

variable {before after : List ScopeEvent}

/-- What holds at the start and stays along the events of a chunk holds throughout. -/
theorem run_induction {P : Resolver → Prop} (c : Chunk) (hstart : P start)
    (hstep : ∀ before e after, c.events = before ++ e :: after → P (start.run before) →
      P ((start.run before).step e)) (hsplit : c.events = before ++ after) :
    P (start.run before) := by
  induction before using reverseRec generalizing after with
  | nil => exact hstart
  | append_singleton before e ih =>
    rw [append_assoc, singleton_append] at hsplit
    rw [run_append]
    exact hstep before e after hsplit (ih hsplit)

theorem scopes_ne_nil_or (c : Chunk) (hsplit : c.events = before ++ e :: after) :
    (start.run before).scopes ≠ [] ∨ before = [] ∧ e = .enter .file ⟨0, c.size⟩ := by
  by_cases hbefore : before = []
  · subst hbefore
    injection hsplit with hfirst
    exact .inr ⟨rfl, hfirst.symm⟩
  · exact .inl (scopes_ne_nil hsplit hbefore)

theorem scopes_ne_nil_of_use? {c : Chunk} (hsplit : c.events = before ++ e :: after)
    (hu : e.use? = some u) : (start.run before).scopes ≠ [] := by
  rcases c.scopes_ne_nil_or hsplit with hopen | ⟨-, rfl⟩
  · exact hopen
  · cases hu

theorem linked_run (c : Chunk) (hsplit : c.events = before ++ after) :
    (start.run before).Linked := by
  refine c.run_induction Linked.start ?_ hsplit
  intro before e after hsplit hlinked
  rcases c.scopes_ne_nil_or hsplit with hopen | ⟨rfl, rfl⟩
  · cases e with
    | enter kind span => exact hlinked.enter kind span fun hnil => absurd hnil hopen
    | leave => exact hlinked.leave
    | _ => exact hlinked.step hopen trivial
  · exact hlinked.enter _ _ fun _ => rfl

end Chunk

def Reference.use (ref : Reference) : Use :=
  ⟨ref.name, ref.span, ⟨ref.read, ref.write, ref.value, ref.indexing⟩⟩

theorem Resolver.use?_of_newReference? (hnew : r.newReference? e = some ref.bare) :
    e.use? = some ref.use ∧ ref.scope = r.current := by
  obtain ⟨⟨name, span, read, write, value, indexing⟩, hu, hbare⟩ := Option.map_eq_some_iff.mp hnew
  simp only [Reference.bare, Reference.mk.injEq] at hbare
  obtain ⟨rfl, rfl, hscope, rfl, rfl, rfl, -, rfl, -⟩ := hbare
  exact ⟨hu, hscope.symm⟩

theorem Resolver.use_of_run_step {later : List ScopeEvent} (hge : r.graph.references.size ≤ i)
    (hlt : i < (r.step e).graph.references.size)
    (href : ((r.step e).run later).graph.references[i]? = some ref) :
    e.use? = some ref.use ∧ ref.scope = r.current := by
  have hview := view_run_of_lt bareReferences_step (r.step e) later (by rwa [length_bareReferences])
  rw [bareReferences_step, getElem?_append_right (by rwa [length_bareReferences])] at hview
  cases hnew : r.newReference? e with
  | none => simp [hnew, bareReferences, href] at hview
  | some made =>
    rw [hnew, Option.toList_some, getElem?_singleton] at hview
    split at hview
    · simp only [bareReferences, getElem?_map, Array.getElem?_toList, href, Option.map_some]
        at hview
      cases hview
      exact use?_of_newReference? hnew
    · simp [bareReferences, href] at hview

namespace Chunk

variable {c : Chunk} {ref : Reference}

/-- A reference is made by an event that uses its name. The variable is the one that the name led to
at the time, unless the name is read and led to none. -/
theorem exists_event_of_reference (href : ref ∈ c.resolve.references) :
    ∃ before e after, c.events = before ++ e :: after ∧ e.use? = some ref.use ∧
      ref.scope = (start.run before).current ∧
      ((start.run before).lookup? ref.name ≠ none ∨ ref.read = false →
        ref.resolved = (start.run before).lookup? ref.name) := by
  obtain ⟨i, hi⟩ := Array.mem_iff_getElem?.mp href
  obtain ⟨before, e, after, hsplit, rfl, hnew⟩ := exists_split_of_reference hi
  obtain ⟨hu, hscope⟩ := use?_of_newReference? hnew
  obtain ⟨ref', href', -, hresolved⟩ := exists_reference_of_split hsplit hu
  obtain rfl : ref = ref' := Option.some.inj (hi.symm.trans href')
  exact ⟨before, e, after, hsplit, hu, hscope, hresolved⟩

theorem exists_use_of_reference (href : ref ∈ c.resolve.references) :
    ∃ e ∈ c.events, e.use? = some ref.use := by
  obtain ⟨before, e, after, hsplit, hu, -⟩ := exists_event_of_reference href
  exact ⟨e, by simp [hsplit], hu⟩

end Chunk

variable (h : Parser.parse source = .ok chunk)
include h

theorem Parser.split_unique {before before' after after' : List ScopeEvent} {e' : ScopeEvent}
    {place : Nat} (hsplit : chunk.events = before ++ e :: after)
    (hsplit' : chunk.events = before' ++ e' :: after') (hplace : e.place? true = some place)
    (hplace' : e'.place? true = some place) : before = before' ∧ e = e' := by
  have hi : chunk.events[before.length]? = some e := by simp [hsplit]
  have hj : chunk.events[before'.length]? = some e' := by simp [hsplit']
  have hlength := getElem?_unique_of_nodup_filterMap (nodup_places h true) hi hj hplace hplace'
  have hsame := append_inj (hsplit.symm.trans hsplit') hlength
  exact ⟨hsame.1, (cons.inj hsame.2).1⟩

theorem Parser.use_unique (href : ref ∈ chunk.resolve.references) (he : e ∈ chunk.events)
    (hu : e.use? = some u) (hspan : ref.span.start = u.span.start) :
    ∃ before after, chunk.events = before ++ e :: after ∧ ref.use = u ∧
      ref.scope = (start.run before).current ∧
      ((start.run before).lookup? ref.name ≠ none ∨ ref.read = false →
        ref.resolved = (start.run before).lookup? ref.name) := by
  obtain ⟨before, e', after, hsplit, hu', hmade⟩ := Chunk.exists_event_of_reference href
  obtain ⟨before', after', hsplit'⟩ := append_of_mem he
  have hplace : e'.place? true = some u.span.start :=
    (ScopeEvent.place?_of_use? hu').trans (congrArg some hspan)
  obtain ⟨-, rfl⟩ := split_unique h hsplit hsplit' hplace (ScopeEvent.place?_of_use? hu)
  exact ⟨before, after, hsplit, Option.some.inj (hu'.symm.trans hu), hmade⟩

theorem Parser.reference_index_unique {j : Nat} (hi : chunk.resolve.references[i]? = some ref)
    (hj : chunk.resolve.references[j]? = some ref')
    (hstart : ref.span.start = ref'.span.start) : i = j := by
  obtain ⟨before, e, after, hsplit, rfl, hnew⟩ := exists_split_of_reference hi
  obtain ⟨before', e', after', hsplit', rfl, hnew'⟩ := exists_split_of_reference hj
  have hplace := ScopeEvent.place?_of_use? (use?_of_newReference? hnew).1
  have hplace' := ScopeEvent.place?_of_use? (use?_of_newReference? hnew').1
  have hstart : ref'.use.span.start = ref.use.span.start := hstart.symm
  rw [hstart] at hplace'
  rw [(split_unique h hsplit hsplit' hplace hplace').1]

theorem Parser.reference_unique (href : ref ∈ chunk.resolve.references)
    (href' : ref' ∈ chunk.resolve.references) (hstart : ref.span.start = ref'.span.start) :
    ref = ref' := by
  obtain ⟨i, hi⟩ := Array.mem_iff_getElem?.mp href
  obtain ⟨j, hj⟩ := Array.mem_iff_getElem?.mp href'
  obtain rfl := reference_index_unique h hi hj hstart
  exact Option.some.inj (hi.symm.trans hj)

end LuaLint
