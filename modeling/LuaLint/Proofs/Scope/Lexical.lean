import LuaLint.Proofs.Scope.Places
import LuaLint.Proofs.Scope.Resolution

/-!
# Name resolution agrees with lexical scoping

A reference of a parsed chunk is resolved to the variable of a declaration exactly if lexical
scoping binds the occurrence to that declaration. What scoping leaves to the globals is resolved to
nothing or to the variable of a global.

Main statements: `Parser.binds_unique`, `Parser.variable_unique`, `Parser.resolve_iff_binds`.
-/

namespace LuaLint

open List

variable {source : Bytes} {chunk : Chunk} {decl : Span} {α β : Type} {i j : Nat}

/-! ## Occurrences -/

theorem Frame.map_start_occurrences (fs : List Frame) (es : List ScopeEvent) :
    (occurrences fs es).map (fun b => b.use.start) = es.filterMap (ScopeEvent.place? true) := by
  induction es generalizing fs with
  | nil => rfl
  | cons e es ih =>
    rw [occurrences, map_append, ih]
    cases e <;> rfl

theorem Parser.binding_unique (h : Parser.parse source = .ok chunk) {b b' : Binding}
    (hb : b ∈ chunk.bindings) (hb' : b' ∈ chunk.bindings) (hstart : b.use.start = b'.use.start) :
    b = b' := by
  have hnodup : (chunk.bindings.map fun b => b.use.start).Nodup := by
    refine (chunk.occurrences_events.map _).nodup_iff.mp ?_
    rw [Frame.map_start_occurrences]
    exact nodup_places h true
  exact inj_on_of_nodup_map hnodup hb hb' hstart

/-- An occurrence is bound to one declaration. -/
theorem Parser.binds_unique (h : Parser.parse source = .ok chunk) {use : Span}
    {decl decl' : Option Span} (hdecl : chunk.Binds use decl) (hdecl' : chunk.Binds use decl') :
    decl = decl' :=
  (Binding.mk.inj (binding_unique h hdecl hdecl' rfl)).2

/-! ## Declarations -/

/-- What a declaration says of its variable: the name, its place, and whether it is a `self`. -/
def Variable.origin? (v : Variable) : Option (Bytes × Span × Bool) :=
  v.declaration?.map fun place => (v.name, place, v.isSelf)

def ScopeEvent.origin? : ScopeEvent → Option (Bytes × Span × Bool)
  | .declare d => some (d.name, d.identifier, d.isSelf)
  | _ => none

/-- What is said of the variables of a graph, but for those of globals. -/
def ScopeGraph.origins (g : ScopeGraph) : List (Bytes × Span × Bool) :=
  g.vars.toList.filterMap Variable.origin?

def Variable.bare (v : Variable) : Variable := { v with definitions := [], references := [] }

theorem ScopeGraph.Alike.lookup? {g g' : ScopeGraph} (h : g.Alike g') (name : Bytes)
    (ids : List Nat) : g'.lookup? name ids = g.lookup? name ids := by
  have hdeclared : ∀ vars, g'.declared? name vars = g.declared? name vars := by
    intro vars
    have hany : ∀ (g : ScopeGraph) (id : Nat), ((g.vars[id]?).any fun v => v.name == name) =
        (g.known? id).any fun entry => entry.1 == name := by
      intro g id
      rw [known?, Option.any_map]
      rfl
    simp only [declared?, hany, h.entries]
  induction ids with
  | nil => rfl
  | cons id ids ih =>
    rw [ScopeGraph.lookup?, ScopeGraph.lookup?, ih]
    rcases same_view_cases (h.contents id) with ⟨hs, hs'⟩ | ⟨s, s', hs, hs', heq⟩
    · rw [hs, hs']
    · obtain ⟨hkind, hvars⟩ := Prod.mk.inj heq
      simp only [hs, hs', hvars, hkind, hdeclared]

namespace Resolver

variable (r : Resolver)

def bareVars : List Variable := r.graph.vars.toList.map Variable.bare

def newVariable? : ScopeEvent → Option Variable
  | .declare d =>
    some ⟨d.name, r.current, d.identifier, [], r.lookup? d.name, d.isSelf, false, d.attrib,
      d.value, []⟩
  | .assign u =>
    if (r.lookup? u.name).isNone then
      some ⟨u.name, r.current, u.span, [], none, false, true, none, .unknown, []⟩
    else none
  | _ => none

theorem lookup?_use (u : Use) (name : Bytes) : (r.use u).lookup? name = r.lookup? name :=
  (alike_use r u).lookup? name r.scopes

theorem bareVars_use (u : Use) : (r.use u).bareVars = r.bareVars := by
  simp only [use, bareVars]
  split
  · rfl
  · exact map_toList_modify (by intro; rfl) _ _

theorem bareVars_claim (name : Bytes) : (r.claim name).bareVars = r.bareVars :=
  map_toList_modify (by intro; rfl) _ _

/-- An event adds at most one variable, and the others keep what they have. -/
theorem bareVars_step (e : ScopeEvent) :
    (r.step e).bareVars = r.bareVars ++ (r.newVariable? e).toList := by
  cases e with
  | enter kind span => exact (append_nil _).symm
  | leave => exact (append_nil _).symm
  | declare d =>
    simp only [step, declare, bareVars, Array.toList_push, map_append]
    rfl
  | use u => exact (r.bareVars_use u).trans (append_nil _).symm
  | assign u =>
    simp only [step, assign, newVariable?]
    cases hlookup : r.lookup? u.name with
    | some id => exact (r.bareVars_use u).trans (append_nil _).symm
    | none =>
      -- The name is still undeclared after it has been used, so that nothing is shadowed.
      have hstill : (r.use u).lookup? u.name = none := (r.lookup?_use u u.name).trans hlookup
      rw [bareVars_claim, ← bareVars_use r u]
      simp only [bareVars, declare, Array.toList_push, map_append, hstill]
      rfl
  | extend u definition =>
    refine Eq.trans ?_ ((r.bareVars_use u).trans (append_nil _).symm)
    simp only [step, extend]
    split
    · rfl
    · exact map_toList_modify (by intro; rfl) _ _
  | call c =>
    refine Eq.trans ?_ (append_nil _).symm
    exact call_induction (P := fun r' => r'.bareVars = r.bareVars) c rfl (fun _ => rfl)
      fun _ _ _ h => h

theorem origins_eq : r.graph.origins = r.bareVars.filterMap Variable.origin? := by
  rw [bareVars, filterMap_map]
  rfl

theorem origins_step (e : ScopeEvent) :
    (r.step e).graph.origins = r.graph.origins ++ e.origin?.toList := by
  rw [origins_eq, bareVars_step, filterMap_append, ← origins_eq]
  cases e with
  | assign u =>
    rw [newVariable?]
    split <;> rfl
  | _ => rfl

theorem origins_run (es : List ScopeEvent) :
    (r.run es).graph.origins = r.graph.origins ++ es.filterMap ScopeEvent.origin? := by
  induction es generalizing r with
  | nil => exact (append_nil _).symm
  | cons e es ih =>
    rw [run, foldl_cons, ← run, ih, origins_step, append_assoc]
    cases h : e.origin? <;> simp [h]

end Resolver

theorem Chunk.origins_resolve (c : Chunk) :
    c.resolve.origins = c.events.filterMap ScopeEvent.origin? := Resolver.start.origins_run c.events

theorem ScopeEvent.map_origin? (e : ScopeEvent) :
    (e.origin?.map fun origin => origin.2.1.start) = e.place? false := by
  cases e <;> rfl

theorem getElem?_unique_of_nodup_filterMap {l : List α} {f : α → Option β}
    (h : (l.filterMap f).Nodup) {a b : α} {x : β} (hi : l[i]? = some a) (hj : l[j]? = some b)
    (ha : f a = some x) (hb : f b = some x) : i = j := by
  rw [List.Nodup, pairwise_filterMap, pairwise_iff_getElem] at h
  obtain ⟨hlti, rfl⟩ := List.getElem?_eq_some_iff.mp hi
  obtain ⟨hltj, rfl⟩ := List.getElem?_eq_some_iff.mp hj
  rcases Nat.lt_trichotomy i j with hlt | heq | hlt
  · exact absurd rfl (h i j hlti hltj hlt x ha x hb)
  · exact heq
  · exact absurd rfl (h j i hltj hlti hlt x hb x ha)

/-- A declaration has one variable. -/
theorem Parser.variable_unique (h : Parser.parse source = .ok chunk) {v w : Variable}
    (hi : chunk.resolve.vars[i]? = some v) (hj : chunk.resolve.vars[j]? = some w)
    (hv : v.declaration? = some decl) (hw : w.declaration? = some decl) : i = j := by
  have hnodup : (chunk.resolve.origins.map fun origin => origin.2.1.start).Nodup := by
    rw [chunk.origins_resolve, map_filterMap]
    simpa only [ScopeEvent.map_origin?] using nodup_places h false
  rw [ScopeGraph.origins, map_filterMap] at hnodup
  have hstart : ∀ u : Variable, u.declaration? = some decl →
      (u.origin?.map fun origin => origin.2.1.start) = some decl.start := by
    intro u hu
    simp [Variable.origin?, hu]
  exact getElem?_unique_of_nodup_filterMap hnodup (by simpa using hi) (by simpa using hj)
    (hstart v hv) (hstart w hw)

/-! ## References -/

theorem ScopeGraph.declarationOf?_eq_some {g : ScopeGraph} {resolved : Option Nat} :
    g.declarationOf? resolved = some decl ↔
      ∃ id v, resolved = some id ∧ g.vars[id]? = some v ∧ v.declaration? = some decl := by
  cases resolved with
  | none => simp [declarationOf?]
  | some id => cases hv : g.vars[id]? <;> simp [declarationOf?, known?, hv, Variable.entry]

theorem Variable.declaration?_eq_some {v : Variable} :
    v.declaration? = some decl ↔ v.hoisted = false ∧ v.identifier = decl := by
  cases hv : v.hoisted <;> simp [declaration?, hv]

namespace Parser

variable {source : Bytes} {chunk : Chunk} {ref : Reference}

theorem binds_iff (h : parse source = .ok chunk) (href : ref ∈ chunk.resolve.references)
    (decl : Option Span) :
    chunk.Binds ref.span decl ↔ decl = chunk.resolve.declarationOf? ref.resolved := by
  have hown : chunk.Binds ref.span (chunk.resolve.declarationOf? ref.resolved) := by
    refine chunk.bindings_resolve.mem_iff.mp ?_
    exact mem_map.mpr ⟨ref, Array.mem_toList_iff.mpr href, rfl⟩
  constructor
  · exact fun hdecl => binds_unique h hdecl hown
  · rintro rfl
    exact hown

theorem exists_variable (href : ref ∈ chunk.resolve.references) {id : Nat}
    (hid : ref.resolved = some id) : ∃ v, chunk.resolve.vars[id]? = some v := by
  have hvalid := (Resolver.simulates_run Resolver.valid_start chunk.events).valid
  exact ⟨_, Array.getElem?_eq_getElem (hvalid.resolved ref href id hid)⟩

/-- Name resolution agrees with lexical scoping. The references are the occurrences of names, once
each. A reference is resolved to the variable of a declaration exactly if its occurrence is bound to
the declaration, for which there always is a variable. A reference that is bound to none is
resolved to nothing or to the variable of a global. -/
theorem resolve_iff_binds (h : parse source = .ok chunk) :
    (chunk.resolve.references.toList.map Reference.span).Perm (chunk.bindings.map Binding.use) ∧
    ∀ ref ∈ chunk.resolve.references,
      (∀ (id : Nat) (v : Variable), chunk.resolve.vars[id]? = some v → v.hoisted = false →
        (ref.resolved = some id ↔ chunk.Binds ref.span (some v.identifier))) ∧
      (∀ decl, chunk.Binds ref.span (some decl) →
        ∃ (id : Nat) (v : Variable),
          chunk.resolve.vars[id]? = some v ∧ v.hoisted = false ∧ v.identifier = decl) ∧
      (chunk.Binds ref.span none → ref.resolved = none ∨
        ∃ (id : Nat) (v : Variable),
          ref.resolved = some id ∧ chunk.resolve.vars[id]? = some v ∧ v.hoisted = true) := by
  refine ⟨?_, fun ref href => ⟨fun id v hv hhoisted => ?_, fun decl hbinds => ?_, fun hbinds => ?_⟩⟩
  · have hmap := chunk.bindings_resolve.map Binding.use
    rwa [ScopeGraph.bindings, List.map_map] at hmap
  · have hdecl : v.declaration? = some v.identifier :=
      Variable.declaration?_eq_some.mpr ⟨hhoisted, rfl⟩
    rw [binds_iff h href, eq_comm (a := some v.identifier), ScopeGraph.declarationOf?_eq_some]
    constructor
    · exact fun hid => ⟨id, v, hid, hv, hdecl⟩
    · rintro ⟨id', w, hid', hw, hdecl'⟩
      rw [hid', variable_unique h hw hv hdecl' hdecl]
  · rw [binds_iff h href, eq_comm, ScopeGraph.declarationOf?_eq_some] at hbinds
    obtain ⟨id, v, -, hv, hdecl⟩ := hbinds
    exact ⟨id, v, hv, Variable.declaration?_eq_some.mp hdecl⟩
  · rw [binds_iff h href] at hbinds
    cases hid : ref.resolved with
    | none => exact .inl rfl
    | some id =>
      obtain ⟨v, hv⟩ := exists_variable href hid
      refine .inr ⟨id, v, rfl, hv, ?_⟩
      -- A variable that is declared would be the one that the occurrence is bound to.
      by_contra hhoisted
      have hdecl : chunk.resolve.declarationOf? ref.resolved = some v.identifier :=
        ScopeGraph.declarationOf?_eq_some.mpr ⟨id, v, hid, hv,
          Variable.declaration?_eq_some.mpr ⟨by simpa using hhoisted, rfl⟩⟩
      rw [← hbinds] at hdecl
      cases hdecl

theorem resolve_iff_binds_method :
    ∃ chunk, parse ("g = g local x = x function x:m(...) return self, ... end " ++
        "repeat local y until y" : Bytes) = .ok chunk ∧
      chunk.bindings.map Binding.decl =
        [none, none, none, some ⟨12, 13⟩, some ⟨12, 13⟩, some ⟨29, 30⟩, some ⟨31, 34⟩,
          some ⟨70, 71⟩] ∧
      ∀ ref ∈ chunk.resolve.references,
        ∀ (id : Nat) (v : Variable), chunk.resolve.vars[id]? = some v → v.hoisted = false →
          (ref.resolved = some id ↔ chunk.Binds ref.span (some v.identifier)) := by
  refine exists_ok_and ⟨_, rfl, rfl⟩ fun _ hparse _ ref href => ?_
  exact ((resolve_iff_binds hparse).2 ref href).1

end Parser

end LuaLint
