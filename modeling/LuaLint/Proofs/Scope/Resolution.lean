import Mathlib.Data.List.Basic
import LuaLint.Proofs.Scope.Frames

/-!
# Name resolution by frames

A graph under construction shows a stack of frames and the declarations that its references refer
to. Each event acts on the stack as on frames alone, and adds the occurrence that it meets there to
the references. What a write to a global does to earlier references does not show, since the
variable of a global has no declaration.

Main statements: `Resolver.simulates_step`, `Chunk.bindings_resolve`.
-/

namespace LuaLint

open List ScopeGraph LuaLint.Frame Resolver

variable {id : Nat} {α β : Type} {f : α → α} {p : α → β}

/-! ## What a graph shows -/

/-- The declaration of a variable, unless it stands for a global. -/
def Variable.declaration? (v : Variable) : Option Span :=
  if v.hoisted then none else some v.identifier

def Variable.entry (v : Variable) : Bytes × Option Span := (v.name, v.declaration?)

namespace ScopeGraph

/-- What a frame keeps of a variable: its name and declaration. -/
def known? (g : ScopeGraph) (id : Nat) : Option (Bytes × Option Span) :=
  (g.vars[id]?).map Variable.entry

def declarationOf? (g : ScopeGraph) (resolved : Option Nat) : Option Span :=
  (resolved.bind g.known?).bind Prod.snd

/-- The references with the declarations that they refer to. -/
def bindings (g : ScopeGraph) : List Binding :=
  g.references.toList.map fun ref => ⟨ref.span, g.declarationOf? ref.resolved⟩

/-- The frame of a scope, with the latest variable first. -/
def frame (g : ScopeGraph) (id : Nat) : Frame :=
  (g.scopes[id]?).elim ⟨.file, []⟩ fun s => ⟨s.kind, s.vars.reverse.filterMap g.known?⟩

end ScopeGraph

namespace Resolver

def frames (r : Resolver) : List Frame := r.scopes.map r.graph.frame

/-- The open scopes are different scopes of the graph, and variables are numbered as declared. -/
structure Valid (r : Resolver) : Prop where
  opened : ∀ id ∈ r.scopes, id < r.graph.scopes.size
  apart : r.scopes.Nodup
  declared : ∀ (i : Nat) (s : Scope), r.graph.scopes[i]? = some s →
    ∀ id ∈ s.vars, id < r.graph.vars.size
  resolved : ∀ ref ∈ r.graph.references, ∀ id, ref.resolved = some id → id < r.graph.vars.size

end Resolver

/-! ## Looking up a name -/

namespace ScopeGraph

variable {g : ScopeGraph} {name : Bytes} {ids : List Nat} {id : Nat}

/-- Searching the entries of a scope finds what searching its variables does. -/
theorem find?_entries (g : ScopeGraph) (name : Bytes) (ids : List Nat) :
    (ids.reverse.filterMap g.known?).find? (fun entry => entry.1 == name) =
      (g.declared? name ids).bind g.known? := by
  rw [find?_filterMap, declared?]
  simp only [known?, Option.any_map]
  rfl

/-- A variable found by its name has that name. -/
theorem known?_of_declared? (h : g.declared? name ids = some id) :
    ∃ decl, g.known? id = some (name, decl) := by
  have hname := find?_some h
  cases hv : g.vars[id]? with
  | none => simp [hv] at hname
  | some v =>
    have hname : v.name = name := by simpa [hv] using hname
    exact ⟨v.declaration?, by rw [known?, hv, Option.map_some, Variable.entry, hname]⟩

theorem known?_of_lookup? (h : g.lookup? name ids = some id) :
    ∃ decl, g.known? id = some (name, decl) := by
  induction ids with
  | nil => simp [lookup?] at h
  | cons i outer ih =>
    rw [lookup?] at h
    split at h
    · simp at h
    · split at h
      · cases h
        exact known?_of_declared? (by assumption)
      · split at h
        · simp at h
        · exact ih h

/-- A lookup through frames finds the declaration that the graph finds. -/
theorem lookup?_frames (g : ScopeGraph) (name : Bytes) {ids : List Nat}
    (hids : ∀ id ∈ ids, id < g.scopes.size) : Frame.lookup? name (ids.map g.frame) =
      ((g.lookup? name ids).bind g.known?).map Prod.snd := by
  induction ids with
  | nil => rfl
  | cons i outer ih =>
    have hi : i < g.scopes.size := hids i (by simp)
    have hscope : g.scopes[i]? = some g.scopes[i] := Array.getElem?_eq_getElem hi
    simp only [map_cons, Frame.lookup?, lookup?, frame, hscope, Option.elim_some, find?_entries]
    -- Either this scope declares the name, or the search goes on outside of it.
    cases hdeclared : g.declared? name g.scopes[i].vars with
    | some id =>
      obtain ⟨decl, hentry⟩ := known?_of_declared? hdeclared
      simp [hentry]
    | none =>
      simp only [Option.bind_none]
      split
      · rfl
      · exact ih fun id hid => hids id (.tail _ hid)

end ScopeGraph

namespace Resolver

variable {r : Resolver}

theorem Valid.lookup?_frames (h : r.Valid) (name : Bytes) :
    Frame.lookup? name r.frames = ((r.lookup? name).bind r.graph.known?).map Prod.snd :=
  r.graph.lookup?_frames name h.opened

/-- The declaration that a name is bound to is the same in the frames. -/
theorem Valid.target_frames (h : r.Valid) (name : Bytes) :
    target r.frames name = r.graph.declarationOf? (r.lookup? name) := by
  rw [target, h.lookup?_frames, ScopeGraph.declarationOf?]
  cases (r.lookup? name).bind r.graph.known? with
  | none => rfl
  | some entry => rfl

theorem Valid.isNone_lookup?_frames (h : r.Valid) (name : Bytes) :
    (Frame.lookup? name r.frames).isNone = (r.lookup? name).isNone := by
  rw [h.lookup?_frames]
  cases hlookup : r.lookup? name with
  | none => rfl
  | some id =>
    obtain ⟨decl, hentry⟩ := known?_of_lookup? hlookup
    simp [hentry]

theorem lt_of_lookup? {name : Bytes} (h : r.lookup? name = some id) : id < r.graph.vars.size := by
  obtain ⟨decl, hentry⟩ := known?_of_lookup? h
  rw [known?, Option.map_eq_some_iff] at hentry
  obtain ⟨v, hv, -⟩ := hentry
  exact (Array.getElem?_eq_some_iff.mp hv).1

end Resolver

/-! ## Changes that do not show -/

/-- A change of an entry does not show in a view that it keeps. -/
theorem map_getElem?_modify (hf : ∀ a, p (f a) = p a) (xs : Array α) (i j : Nat) :
    ((xs.modify i f)[j]?).map p = (xs[j]?).map p := by
  rw [Array.getElem?_modify]
  split
  · simp [Function.comp_def, hf]
  · rfl

theorem map_toList_modify (hf : ∀ a, p (f a) = p a) (xs : Array α) (i : Nat) :
    (xs.modify i f).toList.map p = xs.toList.map p := by
  refine ext_getElem? fun j => ?_
  simpa only [getElem?_map, Array.getElem?_toList] using map_getElem?_modify hf xs i j

theorem same_view_cases {x y : Option α} (h : y.map p = x.map p) :
    x = none ∧ y = none ∨ ∃ a b, x = some a ∧ y = some b ∧ p b = p a := by
  cases x <;> cases y <;> simp_all

/-- Two graphs show the same frames. -/
structure ScopeGraph.Alike (g g' : ScopeGraph) : Prop where
  vars : g'.vars.size = g.vars.size
  scopes : g'.scopes.size = g.scopes.size
  /-- The variables have the same names and declarations. -/
  entries : ∀ id, g'.known? id = g.known? id
  contents : ∀ id : Nat, (g'.scopes[id]?).map (fun s => (s.kind, s.vars)) =
    (g.scopes[id]?).map fun s => (s.kind, s.vars)

namespace ScopeGraph.Alike

variable {g g' : ScopeGraph}

theorem frame (h : g.Alike g') (id : Nat) : g'.frame id = g.frame id := by
  have hentries : g'.known? = g.known? := funext h.entries
  unfold ScopeGraph.frame
  rw [hentries]
  rcases same_view_cases (h.contents id) with ⟨hs, hs'⟩ | ⟨s, s', hs, hs', heq⟩
  · rw [hs, hs']
  · obtain ⟨hkind, hvars⟩ := Prod.mk.inj heq
    rw [hs, hs', Option.elim_some, Option.elim_some, hkind, hvars]

theorem declarationOf? (h : g.Alike g') (resolved : Option Nat) :
    g'.declarationOf? resolved = g.declarationOf? resolved := by
  have hentries : g'.known? = g.known? := funext h.entries
  rw [ScopeGraph.declarationOf?, ScopeGraph.declarationOf?, hentries]

end ScopeGraph.Alike

namespace Resolver

variable {r r' : Resolver}

/-- Frames depend only on what alike graphs share. -/
theorem frames_of_alike (hscopes : r'.scopes = r.scopes) (h : r.graph.Alike r'.graph) :
    r'.frames = r.frames := by
  rw [frames, frames, hscopes]
  exact map_congr_left fun id _ => h.frame id

theorem Valid.of_alike (hr : r.Valid) (hscopes : r'.scopes = r.scopes)
    (h : r.graph.Alike r'.graph)
    (hresolved : ∀ ref ∈ r'.graph.references, ∀ id, ref.resolved = some id →
      id < r.graph.vars.size) : r'.Valid where
  opened := by
    rw [hscopes, h.scopes]
    exact hr.opened
  apart := hscopes ▸ hr.apart
  declared i s hs id hid := by
    have hcontents := h.contents i
    rw [hs, Option.map_some, eq_comm, Option.map_eq_some_iff] at hcontents
    obtain ⟨s', hs', heq⟩ := hcontents
    rw [h.vars]
    exact hr.declared i s' hs' id ((Prod.mk.inj heq).2 ▸ hid)
  resolved ref href id hid := by
    rw [h.vars]
    exact hresolved ref href id hid

/-! ## Events -/

/-- One graph under construction comes from another by events that lead to some frames and meet
some occurrences. -/
structure Simulates (r r' : Resolver) (fs : List Frame) (bs : List Binding) : Prop where
  /-- Numbers stay those of entries. -/
  valid : r'.Valid
  frames : r'.frames = fs
  /-- The references are extended by the given ones. -/
  bindings : r'.graph.bindings = r.graph.bindings ++ bs

/-- A change that shows neither in the frames nor in the references is no change. -/
theorem Simulates.of_alike {r'' : Resolver} {fs : List Frame} {bs : List Binding}
    (h : Simulates r r' fs bs) (hscopes : r''.scopes = r'.scopes)
    (halike : r'.graph.Alike r''.graph)
    (href : r''.graph.references.toList.map (fun ref => (ref.span, ref.resolved)) =
      r'.graph.references.toList.map fun ref => (ref.span, ref.resolved)) :
    Simulates r r'' fs bs where
  valid := by
    refine h.valid.of_alike hscopes halike fun ref hmem id hid => ?_
    have hpair : (ref.span, ref.resolved) ∈
        r''.graph.references.toList.map fun ref => (ref.span, ref.resolved) :=
      mem_map.mpr ⟨ref, Array.mem_toList_iff.mpr hmem, rfl⟩
    rw [href] at hpair
    obtain ⟨old, hold, heq⟩ := mem_map.mp hpair
    exact h.valid.resolved old (Array.mem_toList_iff.mp hold) id ((Prod.mk.inj heq).2.trans hid)
  frames := (frames_of_alike hscopes halike).trans h.frames
  bindings := by
    refine Eq.trans ?_ h.bindings
    -- Bindings are computed from the spans and the numbers of the variables alone.
    have hmap := congrArg (map fun p : Span × Option Nat =>
      (⟨p.1, r'.graph.declarationOf? p.2⟩ : Binding)) href
    simpa only [ScopeGraph.bindings, halike.declarationOf?, map_map, Function.comp_def]
      using hmap

/-- The use of a name adds a reference and changes no frame. -/
theorem alike_use (r : Resolver) (u : Use) : r.graph.Alike (r.use u).graph := by
  refine ⟨?_, ?_, fun id => ?_, fun id => ?_⟩
  · simp only [use]
    split <;> simp
  · simp [use]
  · simp only [use, known?]
    split
    · rfl
    · exact map_getElem?_modify (by intro; rfl) _ _ _
  · exact map_getElem?_modify (by intro; rfl) _ _ _

/-- A use meets an occurrence, bound as the frames say. -/
theorem simulates_use (hr : r.Valid) (u : Use) :
    Simulates r (r.use u) r.frames [⟨u.span, target r.frames u.name⟩] := by
  have halike := alike_use r u
  refine ⟨?_, frames_of_alike rfl halike, ?_⟩
  · refine hr.of_alike rfl halike fun ref href id hid => ?_
    rcases Array.mem_push.mp href with href | rfl
    · exact hr.resolved ref href id hid
    · exact lt_of_lookup? hid
  · rw [hr.target_frames]
    simp only [ScopeGraph.bindings, halike.declarationOf?]
    simp [use]

/-- A scope is entered as a new frame. -/
theorem simulates_enter (hr : r.Valid) (kind : ScopeKind) (span : Span) :
    Simulates r (r.enter kind span) (⟨kind, []⟩ :: r.frames) [] where
  valid := by
    refine ⟨fun id hid => ?_, ?_, fun i s hs id hid => ?_, hr.resolved⟩
    · rcases mem_cons.mp hid with rfl | hid
      · simp [enter]
      · exact Nat.lt_of_lt_of_le (hr.opened id hid) (by simp [enter])
    · exact nodup_cons.mpr ⟨fun hmem => Nat.lt_irrefl _ (hr.opened _ hmem), hr.apart⟩
    · simp only [enter, Array.getElem?_push] at hs
      split at hs
      · cases hs
        cases hid
      · exact hr.declared i s hs id hid
  frames := by
    have hnew : (r.enter kind span).graph.frame r.graph.scopes.size = ⟨kind, []⟩ := by
      simp [enter, ScopeGraph.frame]
    -- The new scope has a number of its own, so the frames of the open ones are as before.
    have hold : ∀ id ∈ r.scopes, (r.enter kind span).graph.frame id = r.graph.frame id := by
      intro id hid
      have hne : id ≠ r.graph.scopes.size := Nat.ne_of_lt (hr.opened id hid)
      simp only [enter, ScopeGraph.frame, Array.getElem?_push, hne, if_false]
      rfl
    exact cons_eq_cons.mpr ⟨hnew, map_congr_left hold⟩
  bindings := (append_nil _).symm

/-- The frame of the scope that is left goes away. -/
theorem simulates_leave (hr : r.Valid) : Simulates r r.leave r.frames.tail [] where
  valid := ⟨fun id hid => hr.opened id (mem_of_mem_tail hid), hr.apart.tail, hr.declared,
    hr.resolved⟩
  frames := map_tail
  bindings := (append_nil _).symm

section Declare

variable (d : Declaration) (hoisted : Bool)

/-- A declaration appends one variable and leaves the others. -/
theorem known?_declare (r : Resolver) (id : Nat) : (r.declare d hoisted).graph.known? id =
      if id = r.graph.vars.size then some (d.name, if hoisted then none else some d.identifier)
      else r.graph.known? id := by
  simp only [declare, known?, Array.getElem?_push]
  split <;> rfl

theorem known?_declare_last (r : Resolver) :
    (r.declare d hoisted).graph.known? ((r.declare d hoisted).graph.vars.size - 1) =
      some (d.name, if hoisted then none else some d.identifier) := by
  have hsize : (r.declare d hoisted).graph.vars.size - 1 = r.graph.vars.size := by simp [declare]
  rw [hsize, known?_declare, if_pos rfl]

theorem known?_declare_of_lt (hid : id < r.graph.vars.size) :
    (r.declare d hoisted).graph.known? id = r.graph.known? id := by
  rw [known?_declare, if_neg (Nat.ne_of_lt hid)]

theorem Valid.filterMap_known? (hr : r.Valid) {i : Nat} {s : Scope}
    (hs : r.graph.scopes[i]? = some s) :
    s.vars.reverse.filterMap (r.declare d hoisted).graph.known? =
      s.vars.reverse.filterMap r.graph.known? :=
  filterMap_congr fun id hid =>
    known?_declare_of_lt d hoisted (hr.declared i s hs id (mem_reverse.mp hid))

/-- Other frames than the current one stay. -/
theorem Valid.frame_declare_of_ne (hr : r.Valid) (hid : id ≠ r.current) :
    (r.declare d hoisted).graph.frame id = r.graph.frame id := by
  have hscope : (r.declare d hoisted).graph.scopes[id]? = r.graph.scopes[id]? := by
    simp [declare, Array.getElem?_modify, hid.symm]
  rw [ScopeGraph.frame, ScopeGraph.frame, hscope]
  cases hs : r.graph.scopes[id]? with
  | none => rfl
  | some s => simp only [Option.elim_some, hr.filterMap_known? d hoisted hs]

/-- The current frame gets the new entry in front. -/
theorem Valid.frame_declare_current (hr : r.Valid) (hcurrent : r.current < r.graph.scopes.size) :
    (r.declare d hoisted).graph.frame r.current =
      ⟨(r.graph.frame r.current).kind,
        (d.name, if hoisted then none else some d.identifier) ::
          (r.graph.frame r.current).entries⟩ := by
  have hs : r.graph.scopes[r.current]? = some r.graph.scopes[r.current] :=
    Array.getElem?_eq_getElem hcurrent
  have hscope : (r.declare d hoisted).graph.scopes[r.current]? =
      some { r.graph.scopes[r.current] with
        vars := r.graph.scopes[r.current].vars ++ [r.graph.vars.size] } := by
    simp [declare, Array.getElem?_modify, hs]
  have hnew : (r.declare d hoisted).graph.known? r.graph.vars.size =
      some (d.name, if hoisted then none else some d.identifier) := by
    rw [known?_declare, if_pos rfl]
  rw [ScopeGraph.frame, ScopeGraph.frame, hscope, hs]
  simp only [Option.elim_some, reverse_append, reverse_cons, reverse_nil, nil_append,
    singleton_append, filterMap_cons_some hnew, hr.filterMap_known? d hoisted hs]

/-- A declaration adds an entry to the innermost frame. -/
theorem simulates_declare (hr : r.Valid) : Simulates r (r.declare d hoisted)
      (Frame.insert (d.name, if hoisted then none else some d.identifier) r.frames) [] where
  valid := by
    refine ⟨fun id hid => ?_, hr.apart, fun i s hs id hid => ?_, fun ref href id hid => ?_⟩
    · simpa [declare] using hr.opened id hid
    · simp only [declare, Array.getElem?_modify] at hs
      simp only [declare, Array.size_push]
      split at hs
      · obtain ⟨s', hs', rfl⟩ := Option.map_eq_some_iff.mp hs
        rcases mem_append.mp hid with hid | hid
        · exact Nat.lt_succ_of_lt (hr.declared i s' hs' id hid)
        · simp [mem_singleton.mp hid]
      · exact Nat.lt_succ_of_lt (hr.declared i s hs id hid)
    · simp only [declare, Array.size_push]
      exact Nat.lt_succ_of_lt (hr.resolved ref href id hid)
  frames := by
    cases hscopes : r.scopes with
    | nil => simp [frames, declare, hscopes, Frame.insert]
    | cons i outer =>
      have hcurrent : r.current = i := by simp [current, hscopes]
      have hi : r.current < r.graph.scopes.size := hr.opened _ (by simp [hscopes, hcurrent])
      -- Open scopes are different, so the others are not the current one.
      have houter : ∀ id ∈ outer, (r.declare d hoisted).graph.frame id = r.graph.frame id := by
        intro id hid
        have hapart := hr.apart
        rw [hscopes, nodup_cons] at hapart
        exact hr.frame_declare_of_ne d hoisted fun h => hapart.1 (hcurrent ▸ h ▸ hid)
      have hframe := hr.frame_declare_current d hoisted hi
      rw [hcurrent] at hframe
      have hsame : (r.declare d hoisted).scopes = i :: outer := hscopes
      rw [frames, frames, hsame, hscopes, map_cons, hframe, map_congr_left houter]
      rfl
  bindings := by
    rw [append_nil]
    refine map_congr_left fun ref href => ?_
    cases hid : ref.resolved with
    | none => rfl
    | some id =>
      -- Earlier references have earlier variables, whose entries stay.
      have hlt := hr.resolved ref (Array.mem_toList_iff.mp href) id hid
      simp only [ScopeGraph.declarationOf?, Option.bind_some, known?_declare_of_lt d hoisted hlt]

end Declare

/-- A global takes over earlier references, which were bound to no declaration. -/
theorem simulates_claim (hr : r.Valid) (name : Bytes) {n : Bytes}
    (hlast : r.graph.known? (r.graph.vars.size - 1) = some (n, none)) :
    Simulates r (r.claim name) r.frames [] := by
  have halike : r.graph.Alike (r.claim name).graph := by
    refine ⟨by simp [claim], rfl, fun id => ?_, fun _ => rfl⟩
    exact map_getElem?_modify (by intro; rfl) _ _ _
  have hlt : r.graph.vars.size - 1 < r.graph.vars.size := by
    obtain ⟨v, hv, -⟩ := Option.map_eq_some_iff.mp hlast
    exact (Array.getElem?_eq_some_iff.mp hv).1
  refine ⟨hr.of_alike rfl halike fun ref href id hid => ?_, frames_of_alike rfl halike, ?_⟩
  · obtain ⟨old, hold, rfl⟩ := Array.mem_map.mp href
    split at hid
    · cases hid
      exact hlt
    · exact hr.resolved old hold id hid
  · simp only [ScopeGraph.bindings, halike.declarationOf?, append_nil]
    simp only [claim, Array.toList_map, map_map]
    refine map_congr_left fun ref _ => ?_
    rw [Function.comp_apply]
    split
    -- The reference was bound to nothing, and a global shows as nothing.
    · rename_i hmissing
      have hnone : ref.resolved = none := by simp_all [unclaimed]
      simp [hnone, ScopeGraph.declarationOf?, hlast]
    · rfl

/-- A write to a name that is not visible makes a global, which has no declaration. -/
theorem simulates_assign (hr : r.Valid) (u : Use) :
    Simulates r (r.assign u) (Frame.step r.frames (.assign u))
      [⟨u.span, target r.frames u.name⟩] := by
  have huse := simulates_use hr u
  simp only [assign, Frame.step, hr.isNone_lookup?_frames]
  cases r.lookup? u.name with
  | some id => exact huse
  | none =>
    -- A global is declared in the current frame and takes over the reference.
    have hdeclare := simulates_declare ⟨u.name, u.span, u.span, false, none, .unknown⟩ true
      huse.valid
    have hclaim := simulates_claim hdeclare.valid u.name (known?_declare_last _ true _)
    refine ⟨hclaim.valid, ?_, ?_⟩
    · rw [hclaim.frames, hdeclare.frames, huse.frames]
      rfl
    · rw [hclaim.bindings, hdeclare.bindings, huse.bindings, append_nil, append_nil]

theorem simulates_extend (hr : r.Valid) (u : Use) (definition : Span) :
    Simulates r (r.extend u definition) r.frames [⟨u.span, target r.frames u.name⟩] := by
  have huse := simulates_use hr u
  simp only [extend]
  cases r.lookup? u.name with
  | none => exact huse
  | some id =>
    refine huse.of_alike rfl ⟨by simp, rfl, fun i => ?_, fun _ => rfl⟩ rfl
    exact map_getElem?_modify (by intro; rfl) _ _ _

theorem simulates_call (hr : r.Valid) (c : CallEvent) : Simulates r (r.call c) r.frames [] := by
  have hsame : Simulates r r r.frames [] := ⟨hr, rfl, (append_nil _).symm⟩
  refine call_induction (P := fun r' => Simulates r r' r.frames []) c hsame (fun _ => ?_)
    fun r' id mark h => ?_
  · exact hsame.of_alike rfl ⟨rfl, rfl, fun _ => rfl, fun _ => rfl⟩ rfl
  · exact h.of_alike rfl ⟨rfl, rfl, fun _ => rfl, fun _ => rfl⟩
      (map_toList_modify (by intro; rfl) _ _)

/-! ## Runs -/

/-- Each event does to the graph what it does to the frames. -/
theorem simulates_step (hr : r.Valid) (e : ScopeEvent) :
    Simulates r (r.step e) (Frame.step r.frames e) (occurrence? r.frames e).toList := by
  cases e with
  | enter kind span => exact simulates_enter hr kind span
  | leave => exact simulates_leave hr
  | declare d => exact simulates_declare d false hr
  | use u => exact simulates_use hr u
  | assign u => exact simulates_assign hr u
  | extend u definition => exact simulates_extend hr u definition
  | call c => exact simulates_call hr c

/-- So do any events, one after the other. -/
theorem simulates_run (hr : r.Valid) (es : List ScopeEvent) :
    Simulates r (r.run es) (es.foldl Frame.step r.frames) (occurrences r.frames es) := by
  induction es generalizing r with
  | nil => exact ⟨hr, rfl, (append_nil _).symm⟩
  | cons e es ih =>
    have hstep := simulates_step hr e
    have hrun := ih hstep.valid
    rw [hstep.frames] at hrun
    refine ⟨hrun.valid, hrun.frames, ?_⟩
    rw [run, foldl_cons, ← run, hrun.bindings, hstep.bindings, Frame.occurrences, append_assoc]

theorem valid_start : start.Valid where
  opened := by simp [start]
  apart := nodup_nil
  declared := by simp [start, empty]
  resolved := by simp [start, empty]

end Resolver

/-- The references of a resolved chunk are the occurrences of its names, with the declarations that
lexical scoping gives them. -/
theorem Chunk.bindings_resolve (c : Chunk) : c.resolve.bindings.Perm c.bindings := by
  have hrun := (simulates_run valid_start c.events).bindings
  have hresolve : c.resolve.bindings = occurrences [] c.events := hrun
  rw [hresolve]
  exact c.occurrences_events

end LuaLint
