import LuaLint.Toml.Reader
import LuaLint.Yaml.Reader

/-!
# Configuration documents

The table of settings in a document, which is written in one of two formats. A document in braces
and brackets is read as one of the second.
-/

namespace LuaLint

/-! ## Values of nodes -/

namespace Yaml

def integerOf (value : Bytes) : Int :=
  let plain := value.filter (· != 95)
  let n := (unsigned? (unsign plain)).getD 0
  if Bytes.startsWith plain "-" then -(n : Int) else n

def floatOf (value : Bytes) : Binary64 :=
  let plain := value.filter (· != 95)
  let negative := Bytes.startsWith plain "-"
  match fraction? plain with
  | some f => .ofDecimal negative ((natural? 10 f.digits).getD 0) (f.exponent - f.places)
  | none => if lowerNan plain then .nan else .infinity negative
where
  /-- Whether a word that is no fraction stands for no number at all. -/
  lowerNan (word : Bytes) : Bool := word.map Bytes.lowerByte == ".nan"

def scalarValue (tag : Tag) (value : Bytes) : ConfigValue :=
  match tag with
  | .null => .null
  | .bool => .bool (value.map Bytes.lowerByte == "true")
  | .int => .int (integerOf value)
  | .float => .float (floatOf value)
  | .timestamp => .moment value
  | .binary => .text ((Base64.decode? value).getD [])
  | _ => .text value

namespace Document

mutual

/-- The value of a node, with a bound for the number of aliases that are followed. -/
def value (d : Document) : Nat → Node → ConfigValue
  | _, .scalar _ tag text => scalarValue tag text
  | 0, _ => .null
  | fuel + 1, .sequence _ _ items => .list (values d fuel items)
  | fuel + 1, .mapping _ entries => .table (entryValues d fuel entries)
  | fuel + 1, .alias line target =>
    match d.resolve (.alias line target) with
    | .alias _ _ => .null
    | n => value d fuel n

def values (d : Document) : Nat → List Node → List ConfigValue
  | _, [] => []
  | 0, _ => []
  | fuel + 1, n :: rest => value d fuel n :: values d fuel rest

/-- The table of several pairs. An entry of its own wins over one that is merged in. -/
def entryValues (d : Document) : Nat → List (Node × Node) → NameMap ConfigValue
  | _, [] => []
  | 0, _ => []
  | fuel + 1, (key, v) :: rest =>
    let later := entryValues d fuel rest
    match d.resolve key with
    | .scalar _ .merge _ =>
      match value d fuel v with
      | .table merged => NameMap.insertAll merged later
      | _ => later
    | .scalar _ _ name => later.insert name (value d fuel v)
    | _ => later

end

end Document

end Yaml

/-! ## Formats -/

inductive ConfigFormat where
  /-- Lines of keys and values under headings. -/
  | toml
  /-- Indented mappings and lists. -/
  | yaml
  | other
  deriving DecidableEq, Repr

namespace ConfigFormat

/-- The extensions of documents in the order in which they are looked for, with their formats. -/
def extensions : List (Bytes × ConfigFormat) :=
  [("json", .yaml), ("toml", .toml), ("yaml", .yaml), ("yml", .yaml), ("properties", .other),
   ("props", .other), ("prop", .other), ("hcl", .other), ("tfvars", .other), ("dotenv", .other),
   ("env", .other), ("ini", .other)]

def ofExtension? (extension : Bytes) : Option ConfigFormat :=
  (extensions.find? fun entry => entry.1 == extension).map Prod.snd

def read? (format : ConfigFormat) (text : Bytes) : Option (NameMap ConfigValue) :=
  match format with
  | .toml => Toml.read text
  | .yaml =>
    match Yaml.read text with
    | some (some d) => (d.value (d.size * 2 + 2) d.root).entries?
    | some none => some []
    | none => none
  | .other => none

end ConfigFormat

end LuaLint
