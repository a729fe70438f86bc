import LuaLint.Proofs.Library.Loaded
import LuaLint.Proofs.Library.RoundTrip

/-!
# Printed libraries

A loaded library can be written as a document, stored and loaded again, which puts it over its base
once more. This gives the library back when everything in it can be written down and it keeps every
field of its base. Otherwise a field of the base that the library has removed comes back, a table
that has lost all its fields is not written, and a deprecation without a message is refused.

Main statements: `Library.loadFile_document`.
-/

namespace LuaLint

namespace Library

variable {tree tree' : FileTree} {dir name path : Bytes} {lib base : Library}

/-- The text of the document is read as a tree with the kinds, tags and values that were written. -/
def Legible (lib : Library) : Prop :=
  ∃ document, Yaml.read lib.document = some (some document) ∧ lib.node.Alike document.root

/-- The library has every field of a base. -/
structure Keeps (lib base : Library) : Prop where
  globals : Field.Kept base.globals lib.globals
  structs : Field.Kept base.structs lib.structs

instance (lib base : Library) : Decidable (lib.Keeps base) :=
  decidable_of_iff (Field.Kept base.globals lib.globals ∧ Field.Kept base.structs lib.structs)
    ⟨fun ⟨h₁, h₂⟩ => ⟨h₁, h₂⟩, fun ⟨h₁, h₂⟩ => ⟨h₁, h₂⟩⟩

theorem parseDocument_document (hsound : lib.Sound) (hspelled : lib.Everywhere Field.Spelled)
    (hlegible : lib.Legible) (hext : Path.extension path ≠ ".toml") :
    parseDocument path lib.document = .ok lib := by
  obtain ⟨document, hread, halike⟩ := hlegible
  have hparse : parse path lib.document = .ok lib := by
    rw [parse, hread]
    exact Decoder.library_of_alike hsound.regular hspelled (fun _ => hsound.closed) halike
  rw [parseDocument, if_neg (by simpa using hext), hparse]
  rfl

theorem layer_eq_self {loadBase : Bytes → Except LoadError Library} (hsound : lib.Sound)
    (hclean : lib.Clean)
    (hbase : lib.base = [] ∨ ∃ base, loadBase lib.base = .ok base ∧ base.Regular ∧ base.Clean ∧
      lib.Keeps base) : lib.layer path loadBase = .ok lib := by
  rw [layer_eq_ok_iff]
  by_cases hnone : lib.base = []
  · exact .inl ⟨hnone, rfl⟩
  · rcases hbase with hbase | ⟨base, hload, hregular, hcleanBase, hkeeps⟩
    · exact absurd hbase hnone
    · have hextend := extend_eq_self hsound.regular hclean hregular hcleanBase hkeeps.globals
        hkeeps.structs
      exact .inr ⟨hnone, base, hload, hextend.symm, hsound.closed⟩

/-- A loaded library is loaded back from its document if everything in it can be written down and it
keeps every field of its base, as far as it has one. -/
theorem loadFile_document (hload : load tree dir name = .ok lib)
    (hspelled : lib.Everywhere Field.Spelled) (hlegible : lib.Legible)
    (hread : tree'.read path = .ok lib.document) (hext : Path.extension path ≠ ".toml")
    (hbase : lib.base = [] ∨
      ∃ base, load tree' (Path.directory path) lib.base = .ok base ∧ lib.Keeps base) :
    loadFile tree' path = .ok lib := by
  obtain ⟨hsound, hclean⟩ := sound_of_loadFrom hload
  have hparse := parseDocument_document hsound hspelled hlegible hext
  have hlayer : lib.layer path (loadFrom tree' (depthBound tree') [] (Path.directory path)) =
      .ok lib := by
    apply layer_eq_self hsound hclean
    refine hbase.imp_right ?_
    rintro ⟨base, hbase, hkeeps⟩
    obtain ⟨hsoundBase, hcleanBase⟩ := sound_of_loadFrom hbase
    exact ⟨base, hbase, hsoundBase.regular, hcleanBase, hkeeps⟩
  rw [loadFile, hread]
  simp only [hparse, Except.bind, hlayer, Except.map]
  rw [prune_eq_self hsound.regular hclean]

/-- A document that adds a field to a table of its base. -/
def reloadTree : FileTree :=
  [("b.yml", .file "globals:\n  t.f:\n    args: []\n"),
    ("x.yml", .file "base: b\nglobals:\n  t.g:\n    property: read-only\n")]

def printedTo (tree : FileTree) (lib : Library) : FileTree :=
  tree.insert "p.yml" (.file lib.document)

theorem loadFile_document_layered :
    ∃ lib, load reloadTree "." "x" = .ok lib ∧ lib.base = Bytes.ofString "b" ∧
      loadFile (printedTo reloadTree lib) "p.yml" = .ok lib := by
  have hload : ∃ lib ∈ (load reloadTree "." "x").toOption, lib.base = Bytes.ofString "b" ∧
      lib.Everywhere Field.Spelled ∧
      (∃ document ∈ (Yaml.read lib.document).join, lib.node.Alike document.root) ∧
      ∃ base ∈ (load (printedTo reloadTree lib) "." "b").toOption, lib.Keeps base := by
    decide +kernel
  obtain ⟨lib, hlib, hbase, hspelled, ⟨document, hread, halike⟩, base, hloadBase, hkeeps⟩ := hload
  have hlib := toOption_eq_some_iff.mp hlib
  have hlegible : lib.Legible := by
    refine ⟨document, ?_, halike⟩
    exact Option.join_eq_some_iff.mp hread
  refine ⟨lib, hlib, hbase, ?_⟩
  apply loadFile_document hlib hspelled hlegible rfl (by decide)
  rw [hbase]
  exact .inr ⟨base, toOption_eq_some_iff.mp hloadBase, hkeeps⟩

/-- A deprecation that is spelled as an empty text. -/
def silentTree : FileTree :=
  [("x.yml", .file "globals:\n  old:\n    args: []\n    deprecated: ''\n")]

/-- An empty message can be read as a text by itself, but it is written as a part of a mapping,
where it is refused. -/
theorem loadFile_document_silent :
    ∃ lib, load silentTree "." "x" = .ok lib ∧ lib.find? ["old"] ≠ none ∧
      loadFile (printedTo silentTree lib) "p.yml" =
        .error (.faulty ⟨"p.yml", 5, .noDeprecationMessage⟩) := by
  have hload : ∃ lib ∈ (load silentTree "." "x").toOption, (lib.find? ["old"]).isSome ∧
      (loadFile (printedTo silentTree lib) "p.yml").casesOn some (fun _ => none) =
        some (.faulty ⟨"p.yml", 5, .noDeprecationMessage⟩) := by
    decide +kernel
  obtain ⟨lib, hlib, hsome, herror⟩ := hload
  refine ⟨lib, toOption_eq_some_iff.mp hlib, Option.isSome_iff_ne_none.mp hsome, ?_⟩
  cases hfile : loadFile (printedTo silentTree lib) "p.yml" with
  | error e =>
    rw [hfile] at herror
    rw [Option.some.inj herror]
  | ok lib' =>
    rw [hfile] at herror
    cases herror

end Library

end LuaLint
