import LuaLint.Proofs.Library.Loaded

/-!
# Removed globals

A document can mark a global as removed. The marker of a document without a base is kept until the
document is put over the parts before it, while a document with a base uses its markers up on that
base. So a removed global is gone from the composition unless a later part brings it back, or the
document has a base and an earlier part provides the global.

Main statements: `Library.defines_extend_iff`, `Library.exists_contributes_of_defines`,
`Library.find?_eq_none_of_removes`.
-/

namespace LuaLint

open NameMap LuaLint.Field

variable {composed acc : Option (Library × Bool)} {dir' : Bytes} {parts : List Bytes}
  {next : Library × Bool}

namespace Library

variable {tree : FileTree} {fuel : Nat} {loading : List Bytes} {dir part name g : Bytes}
  {lib base doc : Library}

/-! ## Globals of layers -/

/-- There is a global of this name, and it is not a removal marker. -/
def Defines (lib : Library) (g : Bytes) : Prop :=
  ∃ f, lib.globals.get? g = some f ∧ f.shape ≠ .removed

def Removes (lib : Library) (g : Bytes) : Prop :=
  ∃ f, lib.globals.get? g = some f ∧ f.shape = .removed

theorem removes_iff : lib.Removes g ↔ (lib.globals.get? g).map shape = some .removed := by
  simp [Removes, Option.map_eq_some_iff]

theorem get?_globals_extend (h : lib.Regular) (hbase : base.Regular) :
    (lib.extend base).globals.get? g =
      layered (layered none (base.globals.get? g)) (lib.globals.get? g) := by
  have hlib : Ascending lib.globals := h.globals.ascending
  have hunder : Ascending base.globals := hbase.globals.ascending
  show (overlayAll (overlayAll [] base.globals) lib.globals).get? g = _
  rw [get?_overlayAll hlib, get?_overlayAll hunder, get?_nil]

/-- A global comes from the library, or from the base if the library is silent. -/
theorem defines_extend_iff (h : lib.Regular) (hbase : base.Regular) : (lib.extend base).Defines g ↔
      lib.Defines g ∨ lib.globals.get? g = none ∧ base.Defines g := by
  unfold Defines
  rw [get?_globals_extend h hbase]
  cases hlib : lib.globals.get? g with
  | some f => by_cases hf : f.shape = .removed <;> simp [layered, hf]
  | none =>
    cases hunder : base.globals.get? g with
    | none => simp [layered]
    | some f => by_cases hf : f.shape = .removed <;> simp [layered, hf]

theorem not_defines_empty : ¬ empty.Defines g := by
  rintro ⟨f, hf, -⟩
  cases hf

theorem defines_prune_iff (h : lib.Regular) : lib.prune.Defines g ↔ lib.Defines g := by
  rw [prune, defines_extend_iff h regular_empty]
  simp [not_defines_empty]

theorem defines_finished_iff {composed : Library × Bool} (h : composed.1.Regular) :
    (finished (some composed)).Defines g ↔ composed.1.Defines g := by
  obtain ⟨lib, builtin⟩ := composed
  cases builtin with
  | true => exact Iff.rfl
  | false => exact defines_prune_iff h

theorem Removes.not_defines (h : lib.Removes g) : ¬ lib.Defines g := by
  obtain ⟨f, hf, hremoved⟩ := h
  rintro ⟨f', hf', hshape⟩
  cases hf.symm.trans hf'
  exact hshape hremoved

/-- A marker is used up by the base it is put over. -/
theorem Removes.not_defines_extend (h : lib.Removes g) (hlib : lib.Regular) (hbase : base.Regular) :
    ¬ (lib.extend base).Defines g := by
  rw [defines_extend_iff hlib hbase]
  rintro (hdefines | ⟨hnone, -⟩)
  · exact h.not_defines hdefines
  · obtain ⟨f, hf, -⟩ := h
    cases hnone.symm.trans hf

theorem Clean.get?_eq_none (h : lib.Clean) (hg : ¬ lib.Defines g) : lib.globals.get? g = none := by
  cases hget : lib.globals.get? g with
  | none => rfl
  | some f =>
    refine absurd ⟨f, hget, ?_⟩ hg
    exact (h.globals _ (mem_of_get? hget)).here

/-! ## The documents of a part -/

/-- The document of a part, with the directory in which its base is looked up. The base of a library
that is always available is another such library, which is in no directory. -/
def document? (tree : FileTree) (loading : List Bytes) (dir part : Bytes) :
    Option (Bytes × Library) :=
  match found? tree loading dir part with
  | some (_, .error _) => none
  | some (path, .ok text) =>
    (parseDocument path text).toOption.map fun doc => (Path.directory path, doc)
  | none => (builtinDocuments.get? part).map fun doc => ([], doc)

/-- The documents that the library of a part is made of: its own one and those of its bases. -/
inductive Contributes (tree : FileTree) : List Bytes → Bytes → Bytes → Library → Prop where
  | own {loading : List Bytes} {dir part dir' : Bytes} {doc : Library} :
      document? tree loading dir part = some (dir', doc) → Contributes tree loading dir part doc
  | ofBase {loading : List Bytes} {dir part dir' part' : Bytes} {doc doc' : Library} :
      document? tree loading dir part = some (dir', doc) → doc.base ≠ [] →
      part' ∈ nameParts doc.base → Contributes tree (loading ++ [part]) dir' part' doc' →
      Contributes tree loading dir part doc'

theorem document?_of_found {path text : Bytes}
    (hfound : found? tree loading dir part = some (path, .ok text))
    (hparse : parseDocument path text = .ok doc) :
    document? tree loading dir part = some (Path.directory path, doc) := by
  simp [document?, hfound, toOption_eq_some_iff.mpr hparse]

theorem document?_of_builtin (hfound : found? tree loading dir part = none)
    (hdoc : builtinDocuments.get? part = some doc) :
    document? tree loading dir part = some ([], doc) := by
  simp [document?, hfound, hdoc]

theorem contributes_of_base_eq_nil {doc' : Library}
    (hdoc : document? tree loading dir part = some (dir', doc)) (hbase : doc.base = [])
    (h : Contributes tree loading dir part doc') : doc' = doc := by
  cases h with
  | own hown => exact (Prod.mk.inj (Option.some.inj (hown.symm.trans hdoc))).2
  | ofBase hown hne =>
    cases hown.symm.trans hdoc
    exact absurd hbase hne

theorem found?_nil : found? tree loading [] part = none := rfl

theorem Stacked.exists_contributes (h : Stacked part lib) (hg : lib.Defines g) :
    ∀ {loading dir}, found? tree loading dir part = none →
      ∃ doc, Contributes tree loading dir part doc ∧ doc.Defines g := by
  induction h with
  | bottom hdoc _ =>
    intro loading dir hfound
    rw [defines_prune_iff (sound_of_builtinDocuments hdoc).regular] at hg
    exact ⟨_, .own (document?_of_builtin hfound hdoc), hg⟩
  | stack hdoc hbase hparts hbelow ih =>
    intro loading dir hfound
    have hown := document?_of_builtin hfound hdoc
    rw [defines_extend_iff (sound_of_builtinDocuments hdoc).regular hbelow.sound.1.regular] at hg
    rcases hg with hg | ⟨-, hg⟩
    · exact ⟨_, .own hown, hg⟩
    · obtain ⟨doc', hdoc', hg⟩ := ih hg found?_nil
      exact ⟨doc', .ofBase hown hbase (by rw [hparts]; exact List.mem_singleton_self _) hdoc', hg⟩

theorem exists_part_of_defines {load : Bytes → Except LoadError (Library × Bool)}
    (hsound : ∀ part ∈ parts, ∀ next, load part = .ok next → next.1.Regular)
    (h : compose name load none parts = .ok composed) (hg : (finished composed).Defines g) :
    ∃ part ∈ parts, ∃ next, load part = .ok next ∧ next.1.Defines g := by
  have hinvariant : ∀ lib ∈ composed, lib.1.Regular ∧
      (lib.1.Defines g → ∃ part ∈ parts, ∃ next, load part = .ok next ∧ next.1.Defines g) := by
    refine compose_invariant (P := fun lib => lib.1.Regular ∧ (lib.1.Defines g →
      ∃ part ∈ parts, ∃ next, load part = .ok next ∧ next.1.Defines g)) ?_ ?_ ?_ h
    · intro part hpart next hnext
      exact ⟨hsound part hpart next hnext, fun hg => ⟨part, hpart, next, hnext, hg⟩⟩
    · intro lib next hlib hnext
      refine ⟨hnext.1.extend hlib.1, fun hg => ?_⟩
      rcases (defines_extend_iff hnext.1 hlib.1).mp hg with hg | ⟨-, hg⟩
      · exact hnext.2 hg
      · exact hlib.2 hg
    · exact fun _ h => nomatch h
  cases composed with
  | none => exact absurd hg not_defines_empty
  | some lib =>
    obtain ⟨hregular, hpart⟩ := hinvariant lib rfl
    exact hpart ((defines_finished_iff hregular).mp hg)

theorem regular_of_loadPart (h : loadPart tree fuel loading dir part = .ok next) :
    next.1.Regular := by
  rcases loadPart_cases h with ⟨path, text, doc, -, hparse, -, hdoc⟩ | ⟨-, hbuiltin, -⟩
  · have hregular := (regular_of_parseDocument hparse).1
    rcases hdoc with ⟨-, heq⟩ | ⟨-, base, hbase, heq, -⟩
    · rwa [heq]
    · rw [heq]
      exact hregular.extend (sound_of_loadFrom hbase).1.regular
  · exact (stacked_of_builtin? hbuiltin).sound.1.regular

/-- A global of a part comes from one of its documents. -/
theorem exists_contributes_of_defines (h : loadPart tree fuel loading dir part = .ok next)
    (hg : next.1.Defines g) : ∃ doc, Contributes tree loading dir part doc ∧ doc.Defines g := by
  induction fuel generalizing loading dir part next with
  | zero =>
    rcases loadPart_cases h with ⟨path, text, doc, hfound, hparse, -, hdoc⟩ | ⟨hfound, hbuiltin, -⟩
    · rcases hdoc with ⟨-, heq⟩ | ⟨-, base, hbase, -⟩
      · exact ⟨doc, .own (document?_of_found hfound hparse), heq ▸ hg⟩
      · cases hbase
    · exact (stacked_of_builtin? hbuiltin).exists_contributes hg hfound
  | succ fuel ih =>
    rcases loadPart_cases h with ⟨path, text, doc, hfound, hparse, -, hdoc⟩ | ⟨hfound, hbuiltin, -⟩
    · have hown := document?_of_found hfound hparse
      rcases hdoc with ⟨-, heq⟩ | ⟨hne, base, hbase, heq, -⟩
      · exact ⟨doc, .own hown, heq ▸ hg⟩
      · have hregular := (regular_of_parseDocument hparse).1
        have hbelow := (sound_of_loadFrom hbase).1.regular
        rw [heq, defines_extend_iff hregular hbelow] at hg
        rcases hg with hg | ⟨-, hg⟩
        · exact ⟨doc, .own hown, hg⟩
        · -- The base is a composition, so that one of its parts has the global.
          rw [loadFrom_succ] at hbase
          obtain ⟨composed, hcompose, rfl⟩ := map_eq_ok_iff.mp hbase
          obtain ⟨part', hpart', next', hnext', hg⟩ := exists_part_of_defines
            (fun _ _ _ hnext => regular_of_loadPart hnext) hcompose hg
          obtain ⟨doc', hdoc', hg⟩ := ih hnext' hg
          exact ⟨doc', .ofBase hown hne hpart' hdoc', hg⟩
    · exact (stacked_of_builtin? hbuiltin).exists_contributes hg hfound

/-! ## Removed globals -/

def loadParts (tree : FileTree) (dir : Bytes) (parts : List Bytes) : Except LoadError Library :=
  (compose [] (loadPart tree ((baseParts tree).length + 1) [] dir) none parts).map finished

theorem compose_eq_ok_of_name {load : Bytes → Except LoadError (Library × Bool)}
    {acc' : Option (Library × Bool)} (h : compose name load acc parts = .ok acc') :
    ∀ name', compose name' load acc parts = .ok acc' := by
  intro name'
  induction parts generalizing acc with
  | nil => exact h
  | cons part rest ih =>
    unfold compose at h ⊢
    split at h
    · cases h
    · rename_i hpart
      obtain ⟨⟨next, builtin⟩, hnext, h⟩ := bind_eq_ok_iff.mp h
      rw [if_neg hpart, hnext]
      cases acc with
      | none => exact ih h
      | some lib => exact ih h

/-- No document that is always available without a base has markers. -/
theorem not_removes_of_builtinDocuments (h : builtinDocuments.get? part = some doc)
    (hbase : doc.base = []) : ¬ doc.Removes g := by
  have hall : ∀ e ∈ builtinDocuments, e.2.base = [] → ∀ f ∈ e.2.globals, f.2.shape ≠ .removed := by
    decide +kernel
  rintro ⟨f, hf, hremoved⟩
  exact hall _ (mem_of_get? h) hbase _ (mem_of_get? hf) hremoved

/-- The document of a part removes a global, so that the library of the part does not define it. If
the document has no base, then its marker is still in the library. -/
theorem not_defines_of_removes (h : loadPart tree fuel loading dir part = .ok next)
    (hdoc : document? tree loading dir part = some (dir', doc)) (hremoves : doc.Removes g) :
    ¬ next.1.Defines g ∧ (doc.base = [] → next.1.Removes g) := by
  rcases loadPart_cases h with ⟨path, text, doc', hfound, hparse, -, hcases⟩ | ⟨hfound, hbuiltin, -⟩
  · obtain ⟨rfl, rfl⟩ := Prod.mk.inj
      (Option.some.inj (hdoc.symm.trans (document?_of_found hfound hparse)))
    have hregular := (regular_of_parseDocument hparse).1
    rcases hcases with ⟨-, heq⟩ | ⟨hne, base, hbase, heq, -⟩
    · rw [heq]
      exact ⟨hremoves.not_defines, fun _ => hremoves⟩
    · rw [heq]
      refine ⟨hremoves.not_defines_extend hregular (sound_of_loadFrom hbase).1.regular, fun h => ?_⟩
      exact absurd h hne
  · have hsame : ∀ doc', builtinDocuments.get? part = some doc' → doc' = doc := fun doc' hdoc' =>
      (Prod.mk.inj (Option.some.inj ((document?_of_builtin hfound hdoc').symm.trans hdoc))).2
    generalize next.1 = lib at hbuiltin ⊢
    cases stacked_of_builtin? hbuiltin with
    | bottom hdoc' hbase =>
      cases hsame _ hdoc'
      exact absurd hremoves (not_removes_of_builtinDocuments hdoc' hbase)
    | stack hdoc' hbase _ hbelow =>
      cases hsame _ hdoc'
      refine ⟨?_, fun h => absurd h hbase⟩
      exact hremoves.not_defines_extend (sound_of_builtinDocuments hdoc').regular
        hbelow.sound.1.regular

def composedOver (next : Library × Bool) : Option (Library × Bool) → Library × Bool
  | none => next
  | some under => (next.1.extend under.1, false)

theorem compose_split {load : Bytes → Except LoadError (Library × Bool)}
    {earlier later : List Bytes}
    (h : compose name load none (earlier ++ part :: later) = .ok composed) :
    ∃ mid next, compose name load none earlier = .ok mid ∧ load part = .ok next ∧
      compose name load (some (composedOver next mid)) later = .ok composed := by
  obtain ⟨mid, hmid, h⟩ := compose_append h
  unfold compose at h
  split at h
  · cases h
  · obtain ⟨next, hnext, h⟩ := bind_eq_ok_iff.mp h
    refine ⟨mid, next, hmid, hnext, ?_⟩
    cases mid <;> exact h

theorem not_defines_composedOver {mid : Option (Library × Bool)}
    (h : loadPart tree fuel loading dir part = .ok next)
    (hdoc : document? tree loading dir part = some (dir', doc)) (hremoves : doc.Removes g)
    (hmid : ∀ under ∈ mid, under.1.Regular)
    (hearlier : doc.base = [] ∨ ∀ under ∈ mid, ¬ under.1.Defines g) :
    ¬ (composedOver next mid).1.Defines g := by
  obtain ⟨hnot, hmarker⟩ := not_defines_of_removes h hdoc hremoves
  cases mid with
  | none => exact hnot
  | some under =>
    rw [composedOver, defines_extend_iff (regular_of_loadPart h) (hmid under rfl)]
    rintro (hdefines | ⟨hnone, hdefines⟩)
    · exact hnot hdefines
    · rcases hearlier with hbase | hearlier
      · -- Without a base the marker is still there.
        obtain ⟨f, hf, -⟩ := hmarker hbase
        cases hnone.symm.trans hf
      · exact hearlier under rfl hdefines

theorem not_defines_of_compose
    (hparts : ∀ p ∈ parts, ∀ doc, Contributes tree loading dir p doc → ¬ doc.Defines g)
    (hacc : ∀ lib ∈ acc, lib.1.Regular ∧ ¬ lib.1.Defines g)
    (h : compose name (loadPart tree fuel loading dir) acc parts = .ok composed) :
    ∀ lib ∈ composed, lib.1.Regular ∧ ¬ lib.1.Defines g := by
  refine compose_invariant (P := fun lib => lib.1.Regular ∧ ¬ lib.1.Defines g) ?_ ?_ hacc h
  · intro p hp next hnext
    refine ⟨regular_of_loadPart hnext, fun hg => ?_⟩
    obtain ⟨doc, hdoc, hg⟩ := exists_contributes_of_defines hnext hg
    exact hparts p hp doc hdoc hg
  · intro lib next hlib hnext
    refine ⟨hnext.1.extend hlib.1, ?_⟩
    rw [defines_extend_iff hnext.1 hlib.1]
    rintro (hg | ⟨-, hg⟩)
    · exact hnext.2 hg
    · exact hlib.2 hg

/-- A global that the document of a part marks as removed is not in the composition, provided that
no document of a later part defines it. If the document has a base, then the parts before it must
not provide the global either, since the marker is used up on the base. -/
theorem find?_eq_none_of_removes {earlier later : List Bytes} {dir' : Bytes}
    (hload : load tree dir name = .ok lib) (hparts : nameParts name = earlier ++ part :: later)
    (hdoc : document? tree [] dir part = some (dir', doc)) (hremoves : doc.Removes g)
    (hearlier : doc.base = [] ∨ ∀ under, loadParts tree dir earlier = .ok under → ¬ under.Defines g)
    (hlater : ∀ p ∈ later, ∀ doc', Contributes tree [] dir p doc' → ¬ doc'.Defines g)
    (hstar : lib.globals.get? "*" = none) : lib.find? [g] = none := by
  have hclean := (sound_of_loadFrom hload).2
  rw [load, depthBound, loadFrom_succ, hparts] at hload
  obtain ⟨composed, hcompose, rfl⟩ := map_eq_ok_iff.mp hload
  obtain ⟨mid, next, hmid, hnext, hcompose⟩ := compose_split hcompose
  -- The parts up to this one are loaded on their own and then built upon.
  have hregular : ∀ under ∈ mid, under.1.Regular := by
    refine compose_invariant (P := fun lib => lib.1.Regular) ?_ ?_ (by rintro _ ⟨⟩) hmid
    · exact fun _ _ _ hnext => regular_of_loadPart hnext
    · exact fun _ _ hlib hnext => hnext.extend hlib
  have hreached : ¬ (composedOver next mid).1.Defines g := by
    apply not_defines_composedOver hnext hdoc hremoves hregular
    refine hearlier.imp_right fun hearlier under hunder hdefines => ?_
    apply hearlier (finished mid) (map_eq_ok_iff.mpr ⟨mid, compose_eq_ok_of_name hmid [], rfl⟩)
    rw [Option.mem_def.mp hunder]
    exact (defines_finished_iff (hregular under hunder)).mpr hdefines
  have hreachedRegular : (composedOver next mid).1.Regular := by
    cases mid with
    | none => exact regular_of_loadPart hnext
    | some under => exact (regular_of_loadPart hnext).extend (hregular under rfl)
  -- The parts after this one do not bring the name back.
  have hcomposed := not_defines_of_compose hlater
    (by rintro _ ⟨⟩; exact ⟨hreachedRegular, hreached⟩) hcompose
  have hgone : ¬ (finished composed).Defines g := by
    cases composed with
    | none => exact not_defines_empty
    | some lib =>
      rw [defines_finished_iff (hcomposed lib rfl).1]
      exact (hcomposed lib rfl).2
  simp [find?, findIn?, Field.child?, hclean.get?_eq_none hgone, hstar]

/-- A directory with a document that removes a global of Lua 5.1, and one that adds another
global. -/
def removalTree : FileTree :=
  [("custom.yml", .file "globals:\n  unpack:\n    removed: true\n"),
    ("other.yml", .file "globals:\n  other:\n    property: read-only\n")]

theorem find?_eq_none_of_removes_custom :
    ∃ lib doc dir', load removalTree "." "lua51+custom+other" = .ok lib ∧
      document? removalTree [] "." "custom" = some (dir', doc) ∧ doc.base = [] ∧
      doc.Removes "unpack" ∧ lib.find? ["unpack"] = none := by
  have hload : (load removalTree "." "lua51+custom+other").toOption.map
      (fun lib => (lib.globals.get? "*").isNone) = some true := by
    decide +kernel
  have hcustom : (document? removalTree [] "." "custom").map
      (fun doc => (doc.2.base, (doc.2.globals.get? "unpack").map Field.shape)) =
        some ([], some .removed) := by
    decide +kernel
  have hother : (document? removalTree [] "." "other").map
      (fun doc => (doc.2.base, (doc.2.globals.get? "unpack").isNone)) = some ([], true) := by
    decide +kernel
  rw [Option.map_eq_some_iff] at hload hcustom hother
  obtain ⟨lib, hlib, hstar⟩ := hload
  obtain ⟨⟨dir', doc⟩, hdoc, hshape⟩ := hcustom
  obtain ⟨⟨dir'', doc'⟩, hdoc', hnone⟩ := hother
  obtain ⟨hbase, hshape⟩ := Prod.mk.inj hshape
  obtain ⟨hbase', hnone⟩ := Prod.mk.inj hnone
  have hremoves := removes_iff.mpr hshape
  have hlib := toOption_eq_some_iff.mp hlib
  have hparts : nameParts "lua51+custom+other" =
      [Bytes.ofString "lua51"] ++ Bytes.ofString "custom" :: [Bytes.ofString "other"] := by
    decide
  refine ⟨lib, doc, dir', hlib, hdoc, hbase, hremoves, ?_⟩
  apply find?_eq_none_of_removes hlib hparts hdoc hremoves (.inl hbase)
  · intro p hp doc'' hcontributes
    rw [List.mem_singleton.mp hp] at hcontributes
    rw [contributes_of_base_eq_nil hdoc' hbase' hcontributes]
    rintro ⟨f, hf, -⟩
    rw [hf] at hnone
    cases hnone
  · exact Option.isNone_iff_eq_none.mp hstar

/-- Lua 5.2 has Lua 5.1 as its base and removes `setfenv` from it. Over Lua 5.1 as a part of its
own, the global is there again. -/
theorem setfenv_of_lua52_over_lua51 :
    ∃ lib dir' doc, load [] [] "lua51+lua52" = .ok lib ∧
      nameParts "lua51+lua52" = [Bytes.ofString "lua51"] ++ Bytes.ofString "lua52" :: [] ∧
      document? [] [] [] "lua52" = some (dir', doc) ∧ doc.Removes "setfenv" ∧
      lib.globals.get? "*" = none ∧ lib.find? ["setfenv"] ≠ none := by
  refine ⟨(lua52.extend lua51).prune, [], Builtin.lua52, rfl, by decide, rfl, ?_, ?_, ?_⟩
  · exact removes_iff.mpr (by decide +kernel)
  · apply Option.isNone_iff_eq_none.mp
    decide +kernel
  · apply Option.isSome_iff_ne_none.mp
    decide +kernel

end Library

end LuaLint
