import LuaLint.Text.Blank
import LuaLint.Files.Tree
import LuaLint.Library.Builtin
import LuaLint.Library.Decode
import LuaLint.Library.Encode
import LuaLint.Toml.Reader
import LuaLint.Yaml.Reader
import LuaLint.Yaml.Writer

/-!
# Loading libraries

Libraries are asked for by names such as `lua51+custom`. Each part of such a name stands for a
document in a directory or for a library that is always available, and the libraries are put over
each other in the order of the parts. A document that names a base is put over it, and the base is
looked up in the directory of the document.
-/

namespace LuaLint

/-! ## Documents -/

namespace Library

def parse (name text : Bytes) : Except DecodeError Library :=
  match Yaml.read text with
  | none => .error ⟨name, 0, .unreadable⟩
  | some none => .error ⟨name, 0, .notMapping "document"⟩
  | some (some d) => (Decoder.mk name d).library

mutual

def nodeOf (name : Bytes) : ConfigValue → Except DecodeError Yaml.Node
  | .text value => .ok (.text value)
  | .bool value => .ok (.truth value)
  | .int value => .ok (.scalar 0 .int (Bytes.ofInt value))
  | .float value => .ok (.scalar 0 .float value.text)
  | .list items => (nodesOf name items).map fun nodes => .sequence 0 false nodes
  | .table entries => (entriesOf name entries).map fun pairs => .mapping 0 pairs
  | .moment shown => .error ⟨name, 0, .unsupported shown⟩
  | .null => .error ⟨name, 0, .unsupported "<nil>"⟩

def nodesOf (name : Bytes) : List ConfigValue → Except DecodeError (List Yaml.Node)
  | [] => .ok []
  | v :: rest =>
    (nodeOf name v).bind fun n => (nodesOf name rest).map fun nodes => n :: nodes

def entriesOf (name : Bytes) :
    List (Bytes × ConfigValue) → Except DecodeError (List (Yaml.Node × Yaml.Node))
  | [] => .ok []
  | (k, v) :: rest =>
    (nodeOf name v).bind fun n =>
      (entriesOf name rest).map fun pairs => (Yaml.Node.text k, n) :: pairs

end

/-- The key of the table about the library itself in the older notation. -/
def metaKey : Bytes := "selene"

def metaText (name key : Bytes) (table : NameMap ConfigValue) : Except DecodeError Bytes :=
  match table.get? key with
  | none => .ok []
  | some (.text value) => .ok value
  | some _ => .error ⟨name, 0, .metaNotString metaKey key⟩

/-- What the table about the library itself says. -/
def ofMeta (name : Bytes) (v : ConfigValue) : Except DecodeError Library :=
  match v with
  | .table table => do
    let base ← metaText name "base" table
    let own ← metaText name "name" table
    match NameMap.get? "structs" table with
    | none => return { empty with base := base, name := own }
    | some structs =>
      let n ← nodeOf name structs
      let tables ← (Decoder.mk name (.ofNode n)).structs n []
      return { empty with base := base, name := own, structs := tables }
  | _ => .error ⟨name, 0, .metaNotTable metaKey⟩

/-- The library that a document in the older notation describes. Its globals stand at the top, and
one table is about the library itself. -/
def parseOlder (name text : Bytes) : Except DecodeError Library := do
  match Toml.read text with
  | none => .error ⟨name, 0, .unreadable⟩
  | some table =>
    let lib ← match table.get? metaKey with
      | some v => ofMeta name v
      | none => .ok empty
    let n ← nodeOf name (.table (table.erase metaKey))
    let globals ← (Decoder.mk name (.ofNode n)).fields n "globals" []
    Library.closed { lib with globals := globals } name

def document (lib : Library) : Bytes := Yaml.render lib.node

def upgrade (name text : Bytes) : Except DecodeError Bytes := (parseOlder name text).map document

end Library

/-! ## Errors -/

inductive LoadError where
  | emptyName (name : Bytes)
  | notFound (name : Bytes)
  /-- A library is below itself, along the given names. -/
  | cyclic (name : Bytes) (trail : List Bytes)
  | unreadable (path : Bytes) (e : ReadError)
  | faulty (e : DecodeError)
  | inBase (path base : Bytes) (cause : LoadError)
  deriving DecidableEq, Repr

namespace LoadError

def text : LoadError → Bytes
  | .emptyName name => "empty standard library name in " ++ Quoted.text name
  | .notFound name => "standard library not found: " ++ name
  | .cyclic name trail =>
    "standard library " ++ name ++ " has a cyclic base: " ++ Bytes.join " -> " trail
  | .unreadable path e => e.message path
  | .faulty e => e.text
  | .inBase path base cause => path ++ ": base " ++ base ++ ": " ++ cause.text

def root : LoadError → LoadError
  | .inBase _ _ cause => cause.root
  | e => e

end LoadError

/-! ## Loading -/

namespace Library

/-- The extensions of documents in the order in which they are looked for. -/
def extensions : List Bytes := [".yml", ".yaml", ".toml"]

def findDocument? (tree : FileTree) (dir part : Bytes) :
    List Bytes → Option (Bytes × Except ReadError Bytes)
  | [] => none
  | ext :: rest =>
    let path := Path.join dir (part ++ ext)
    match tree.read path with
    | .error .missing => findDocument? tree dir part rest
    | result => some (path, result)

def parseDocument (path text : Bytes) : Except LoadError Library :=
  let parsed := if Path.extension path == ".toml" then parseOlder path text else parse path text
  parsed.mapError .faulty

def layer (lib : Library) (path : Bytes) (loadBase : Bytes → Except LoadError Library) :
    Except LoadError Library :=
  if lib.base.isEmpty then .ok lib
  else do
    let base ← (loadBase lib.base).mapError (.inBase path lib.base)
    let layered := lib.extend base
    let _ ← (layered.checkStructs path).mapError .faulty
    return layered

/-- Puts the libraries of the parts of a name over each other. `loadPart` loads the library of a
part and tells whether it is one that is always available. -/
def compose (name : Bytes) (loadPart : Bytes → Except LoadError (Library × Bool)) :
    Option (Library × Bool) → List Bytes → Except LoadError (Option (Library × Bool))
  | acc, [] => .ok acc
  | acc, part :: rest =>
    if part.isEmpty then .error (.emptyName name)
    else
      (loadPart part).bind fun (next, builtin) =>
        match acc with
        | none => compose name loadPart (some (next, builtin)) rest
        | some (lib, _) => compose name loadPart (some (next.extend lib, false)) rest

def nameParts (name : Bytes) : List Bytes := (Bytes.split (Bytes.byte '+') name).map Bytes.trim

/-- The library of a name whose parts are looked up in a directory. `loading` lists the parts that
are being loaded, outermost first, which are not read again. The first argument bounds how many
documents may be below each other. -/
def loadFrom (tree : FileTree) : Nat → List Bytes → Bytes → Bytes → Except LoadError Library
  | 0, loading, _, name => .error (.cyclic name (loading ++ [name]))
  | fuel + 1, loading, dir, name =>
    let loadPart (part : Bytes) : Except LoadError (Library × Bool) :=
      let cyclic := loading.contains part
      let found := if dir.isEmpty || cyclic then none else findDocument? tree dir part extensions
      match found with
      | some (path, .error e) => .error (.unreadable path e)
      | some (path, .ok text) =>
        (parseDocument path text).bind fun lib =>
          (lib.layer path (loadFrom tree fuel (loading ++ [part]) (Path.directory path))).map
            fun lib => (lib, false)
      | none =>
        match builtin? part with
        | some lib => .ok (lib, true)
        | none =>
          if cyclic then .error (.cyclic part (loading ++ [part])) else .error (.notFound part)
    (compose name loadPart none (nameParts name)).map fun composed =>
      match composed with
      | none => empty
      | some (lib, true) => lib
      | some (lib, false) => lib.prune

/-- The names that a text may give to the base of a library, in either notation. -/
def basesIn (text : Bytes) : List Bytes :=
  let newer : List Bytes := match Yaml.read text with
    | some (some d) => d.topScalars
    | _ => []
  let older : List Bytes := match (Toml.read text).bind fun table => table.get? metaKey with
    | some (.table about) => about.filterMap fun entry =>
      match entry.2 with
      | .text value => some value
      | _ => none
    | _ => []
  newer ++ older

def baseParts (tree : FileTree) : List Bytes :=
  (FileTree.contentsOf tree).flatMap fun text => (basesIn text).flatMap nameParts

/-- The bound on the number of documents below each other: each of them is named by a different part
of a base, and the bases stand in the documents. -/
def depthBound (tree : FileTree) : Nat := (baseParts tree).length + 2

/-- The library of a name. Parts are looked up in the directory `dir`, if it is not empty, before
the libraries that are always available. -/
def load (tree : FileTree) (dir name : Bytes) : Except LoadError Library :=
  loadFrom tree (depthBound tree) [] dir name

def loadFile (tree : FileTree) (path : Bytes) : Except LoadError Library :=
  match tree.read path with
  | .error e => .error (.unreadable path e)
  | .ok text =>
    (parseDocument path text).bind fun lib =>
      (lib.layer path (loadFrom tree (depthBound tree) [] (Path.directory path))).map prune

end Library

end LuaLint
