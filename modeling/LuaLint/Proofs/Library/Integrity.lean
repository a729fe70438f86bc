import LuaLint.Proofs.Library.Loaded

/-!
# Integrity of loaded libraries

A loaded library can be searched without further checks: nothing in it is a removal marker, and each
field that stands for a shared table finds that table. The parts of a name are put over each other
without looking at their shared tables again. That is sound because only the fields of a shared
table can be removed, never the table.

Main statements: `Library.sound_of_loadFile`, `Library.loaded_intact`.
-/

namespace LuaLint

/-! ## The fields of a library -/

/-- The field is `f` or is nested somewhere below `f`. -/
inductive Field.Within (g : Field) : Field → Prop where
  | here : Within g g
  | nested {f : Field} {e : Bytes × Field} : e ∈ f.children → Within g e.2 → Within g f

theorem Field.Everywhere.of_within {P : Field → Prop} {f g : Field} (h : f.Everywhere P)
    (hg : g.Within f) : P g := by
  induction hg with
  | here => exact h.here
  | nested he _ ih => exact ih (h.nested _ he)

namespace Library

variable {tree : FileTree} {dir name path : Bytes} {lib : Library}

/-- The field is somewhere in the library: it is a global or a shared table, or is nested in one. -/
def Contains (lib : Library) (f : Field) : Prop :=
  ∃ e, (e ∈ lib.globals ∨ e ∈ lib.structs) ∧ f.Within e.2

/-- What holds everywhere in a regular library holds of each field in it. Shared tables themselves
are not among the fields of which it is known, but they are nothing but tables. -/
theorem Everywhere.of_contains {P : Field → Prop} (h : lib.Everywhere P) (hregular : lib.Regular)
    (htable : ∀ children, P (.table children)) {f : Field} (hf : lib.Contains f) : P f := by
  obtain ⟨e, he | he, hf⟩ := hf
  · exact (h.globals e he).of_within hf
  · exact ((hregular.everywhere_structs htable h e he).of_within hf).2

theorem Sound.struct_isSome (h : lib.Sound) {f : Field} {shared : Bytes} (hf : lib.Contains f)
    (hshape : f.shape = .struct shared) : (lib.structs.get? shared).isSome := by
  have hrefers : f.Refers lib.structs.names :=
    h.closed.of_contains h.regular (fun _ => trivial) hf
  have hknown : shared ∈ lib.structs.names := by
    cases f
    cases hshape
    exact hrefers
  rw [Option.isSome_iff_ne_none]
  exact fun hnone => NameMap.get?_eq_none_iff.mp hnone hknown

/-! ## Documents -/

/-- A library that is loaded from a file is sound and free of markers. -/
theorem sound_of_loadFile (h : loadFile tree path = .ok lib) : lib.Sound ∧ lib.Clean := by
  unfold loadFile at h
  split at h
  · cases h
  · obtain ⟨doc, hparse, h⟩ := bind_eq_ok_iff.mp h
    obtain ⟨layered, hlayer, rfl⟩ := map_eq_ok_iff.mp h
    obtain ⟨hregular, hclosed⟩ := regular_of_parseDocument hparse
    -- Over a base the shared tables are checked once more, since a document may use those of
    -- its base.
    have hsound : layered.Sound := by
      rcases layer_eq_ok_iff.mp hlayer with ⟨hbase, rfl⟩ | ⟨-, base, hbase, rfl, hlayered⟩
      · exact ⟨hregular, hclosed hbase⟩
      · exact ⟨hregular.extend (sound_of_loadFrom hbase).1.regular, hlayered⟩
    exact ⟨hsound.extend sound_empty, clean_extend _ _⟩

/-! ## Loaded libraries -/

/-- No field of a loaded library is a removal marker, every field that stands for a shared table
finds it, and so the check of the shared tables would succeed again, whatever document it is made
for. -/
theorem loaded_intact (h : load tree dir name = .ok lib ∨ loadFile tree path = .ok lib) :
    (∀ f, lib.Contains f → f.shape ≠ .removed) ∧
      (∀ f shared, lib.Contains f → f.shape = .struct shared →
        (lib.structs.get? shared).isSome) ∧
      ∀ document, lib.checkStructs document = .ok () := by
  obtain ⟨hsound, hclean⟩ : lib.Sound ∧ lib.Clean := h.elim sound_of_loadFrom sound_of_loadFile
  refine ⟨fun f hf => ?_, fun f shared hf hshape => ?_, fun document => ?_⟩
  · exact hclean.of_contains hsound.regular (fun _ => by simp) hf
  · exact hsound.struct_isSome hf hshape
  · exact (checkStructs_eq_ok_iff document).mpr hsound.closed

/-- Three documents. The second uses the shared table of its base and removes a field of it, and the
second and the third each remove a global that the first declares. -/
def sharedTree : FileTree :=
  [("a.yml",
    .file ("structs:\n  S:\n    f:\n      property: read-only\n    g:\n      any: true\n" ++
      "globals:\n  x:\n    struct: S\n  old:\n    any: true\n")),
    ("b.yml", .file ("base: a\nstructs:\n  S:\n    g:\n      removed: true\n" ++
      "globals:\n  y:\n    struct: S\n  old:\n    removed: true\n")),
    ("c.yml", .file ("structs:\n  T:\n    h:\n      any: true\n" ++
      "globals:\n  x:\n    removed: true\n  z.t:\n    struct: T\n"))]

theorem loaded_intact_shared :
    ∃ composed layered, load sharedTree "." "b+c" = .ok composed ∧
      loadFile sharedTree "b.yml" = .ok layered ∧
      (composed.globals.names, composed.structs.names) =
        ([Bytes.ofString "y", Bytes.ofString "z"], [Bytes.ofString "S", Bytes.ofString "T"]) ∧
      (layered.globals.names, layered.structs.names) =
        ([Bytes.ofString "x", Bytes.ofString "y"], [Bytes.ofString "S"]) ∧
      (∀ f, composed.Contains f → f.shape ≠ .removed) ∧
      (∀ f, layered.Contains f → f.shape ≠ .removed) ∧
      (∀ document, composed.checkStructs document = .ok ()) ∧
      ∀ document, layered.checkStructs document = .ok () := by
  have hloads : ∃ composed ∈ (load sharedTree "." "b+c").toOption,
      ∃ layered ∈ (loadFile sharedTree "b.yml").toOption,
        (composed.globals.names, composed.structs.names) =
          ([Bytes.ofString "y", Bytes.ofString "z"], [Bytes.ofString "S", Bytes.ofString "T"]) ∧
        (layered.globals.names, layered.structs.names) =
          ([Bytes.ofString "x", Bytes.ofString "y"], [Bytes.ofString "S"]) := by
    decide +kernel
  obtain ⟨composed, hcomposed, layered, hlayered, hnames, hnames'⟩ := hloads
  have hcomposed := toOption_eq_some_iff.mp hcomposed
  have hlayered := toOption_eq_some_iff.mp hlayered
  obtain ⟨hmarkers, -, hcheck⟩ := @loaded_intact sharedTree "." "b+c" [] composed (.inl hcomposed)
  obtain ⟨hmarkers', -, hcheck'⟩ := @loaded_intact sharedTree [] [] "b.yml" layered (.inr hlayered)
  exact ⟨composed, layered, hcomposed, hlayered, hnames, hnames', hmarkers, hmarkers',
    hcheck, hcheck'⟩

end Library

end LuaLint
