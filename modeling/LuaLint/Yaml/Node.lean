import LuaLint.Yaml.Scalar

/-!
# YAML documents

A document is a tree of nodes in which an alias stands for a node that was given an anchor before.
An anchor can be used inside of the node it belongs to, so that following aliases need not end.
-/

namespace LuaLint.Yaml

/-! ## Nodes -/

inductive Node where
  | scalar (line : Nat) (tag : Tag) (value : Bytes)
  /-- A list of nodes. `flow` tells whether it is written in brackets. -/
  | sequence (line : Nat) (flow : Bool) (items : List Node)
  /-- A list of pairs of key and value. -/
  | mapping (line : Nat) (entries : List (Node × Node))
  | alias (line : Nat) (target : Nat)
  deriving Inhabited

namespace Node

/-- The line of the source on which a node begins, or zero for a node that comes from no source. -/
def line : Node → Nat
  | .scalar line _ _ => line
  | .sequence line _ _ => line
  | .mapping line _ => line
  | .alias line _ => line

mutual

def size : Node → Nat
  | .scalar _ _ _ => 1
  | .sequence _ _ items => sizeOf items + 1
  | .mapping _ entries => sizeOfEntries entries + 1
  | .alias _ _ => 1

def sizeOf : List Node → Nat
  | [] => 0
  | n :: rest => n.size + sizeOf rest

def sizeOfEntries : List (Node × Node) → Nat
  | [] => 0
  | (k, v) :: rest => k.size + v.size + sizeOfEntries rest

end

def text (value : Bytes) : Node := .scalar 0 .str value

def truth (value : Bool) : Node :=
  if value then .scalar 0 .bool "true" else .scalar 0 .bool "false"

end Node

structure Document where
  root : Node
  /-- The nodes with anchors, in the order of the anchors. -/
  anchors : List Node
  deriving Inhabited

namespace Document

/-- The document that consists of a tree without aliases. -/
def ofNode (root : Node) : Document := ⟨root, []⟩

def size (d : Document) : Nat := d.root.size + Node.sizeOf d.anchors

/-- The node that a node stands for. An anchor never belongs to an alias, so that one step is
enough. -/
def resolve (d : Document) : Node → Node
  | .alias line target => (d.anchors[target]?).getD (.alias line target)
  | n => n

def topScalars (d : Document) : List Bytes :=
  match d.resolve d.root with
  | .mapping _ entries => entries.filterMap fun entry =>
    match d.resolve entry.2 with
    | .scalar _ _ value => some value
    | _ => none
  | _ => []

/-! ## Strings -/

inductive StringValue where
  | absent
  | present (text : Bytes)
  deriving DecidableEq, Repr

/-- Whether a scalar with a tag that was asked for is spelled as such. An integer counts as a
floating point number. -/
def spelledAs (tag : Tag) (value : Bytes) : Bool :=
  let plain := Tag.ofPlain value
  match tag with
  | .null => plain == .null
  | .bool => plain == .bool
  | .int => plain == .int
  | .float => plain == .float || plain == .int
  | .timestamp => plain == .timestamp
  | _ => false

/-- A scalar taken as a string, unless its tag does not fit its spelling. -/
def scalarText? (tag : Tag) (value : Bytes) : Option StringValue :=
  match tag with
  | .str => some (.present value)
  | .binary => (Base64.decode? value).map .present
  | .null => if spelledAs .null value then some .absent else none
  | tag => if spelledAs tag value then some (.present value) else none

def stringOf? (d : Document) (n : Node) : Option StringValue :=
  match d.resolve n with
  | .scalar _ tag value => scalarText? tag value
  | _ => none

/-- The strings of a sequence, of which nulls are left out. -/
def strings? (d : Document) : List Node → Option (List Bytes)
  | [] => some []
  | n :: rest => do
    let more ← strings? d rest
    match ← d.stringOf? n with
    | .absent => some more
    | .present text => some (text :: more)

def isMergeKey : Node → Bool
  | .scalar _ .merge value => value == "<<"
  | _ => false

def keyTexts : List (Node × Node) → List Bytes
  | [] => []
  | (.scalar _ _ value, _) :: rest => value :: keyTexts rest
  | _ :: rest => keyTexts rest

def allDiffer : List Bytes → Bool
  | [] => true
  | x :: rest => !rest.contains x && allDiffer rest

/-- A pair taken as two strings. A null value is the empty string, and a pair whose key is null is
left out. -/
def stringEntry? (d : Document) (entry : Node × Node) : Option (List (Bytes × Bytes)) := do
  match ← d.stringOf? entry.1, ← d.stringOf? entry.2 with
  | .absent, _ => some []
  | .present key, .absent => some [(key, [])]
  | .present key, .present text => some [(key, text)]

/-- The entries of a mapping whose keys and values are strings, followed by those merged into it.
The first argument bounds how deep merged mappings may nest. -/
def stringMap? (d : Document) : Nat → List (Node × Node) → Option (List (Bytes × Bytes))
  | 0, _ => none
  | fuel + 1, entries => do
    if !allDiffer (keyTexts entries) then none
    let own ← (entries.filter fun e => !isMergeKey e.1).mapM d.stringEntry?
    let merged ← (entries.filter fun e => isMergeKey e.1).mapM fun e =>
      match d.resolve e.2 with
      | .mapping _ more => d.stringMap? fuel more
      | .sequence _ _ items =>
        (items.mapM fun item =>
          match d.resolve item with
          | .mapping _ more => d.stringMap? fuel more
          | _ => none).map List.flatten
      | _ => none
    some (own.flatten ++ merged.flatten)

inductive TruthValue where
  | absent
  | present (value : Bool)
  deriving DecidableEq, Repr

/-- The words for truth values besides the ones that are tagged as such. -/
def truthWord? (word : Bytes) : Option Bool :=
  let yes : List Bytes := ["y", "Y", "yes", "on"]
  let no : List Bytes := ["n", "N", "no", "off"]
  if yes.contains word then some true else if no.contains word then some false else none

def truthOf? (tag : Tag) (value : Bytes) : Option TruthValue :=
  match tag with
  | .str => (truthWord? value).map .present
  | .binary => ((Base64.decode? value).bind truthWord?).map .present
  | .null => if spelledAs .null value then some .absent else none
  | .bool =>
    if spelledAs .bool value then some (.present (value.startsWith "t" || value.startsWith "T"))
    else none
  | _ => none

end Document

end LuaLint.Yaml
