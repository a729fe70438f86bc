import LuaLint.Config.Value
import LuaLint.Text.Quoted

/-!
# Reading configuration values

Turning the entries of a configuration table into truth values, texts and lists of texts. Reading is
lenient: a number may stand for a truth value or a text, and a single value for a list of one.
-/

namespace LuaLint

/-! ## Faults -/

/-- Why an entry of a configuration table cannot be read. -/
inductive ConvertFault where
  | badBool (name text : Bytes)
  | badType (name want : Bytes) (value : ConfigValue)
  | notTable (name : Bytes) (value : ConfigValue)
  | unusedKeys (names : List Bytes)

namespace ConvertFault

def message : ConvertFault → Bytes
  | .badBool name text =>
    "cannot parse '" ++ name ++ "' as bool: strconv.ParseBool: parsing " ++ Quoted.text text ++
      ": invalid syntax"
  | .badType name want value =>
    "'" ++ name ++ "' expected type '" ++ want ++ "', got unconvertible type '" ++
      value.typeName ++ "', value: '" ++ value.shown ++ "'"
  | .notTable name value =>
    "'" ++ name ++ "' expected a map, got '" ++ value.typeName ++ "'"
  | .unusedKeys names => "'' has invalid keys: " ++ Bytes.join ", " names

/-- What is said of a table with some faults: their number and then each of them, in ascending order
of their texts. -/
def report (faults : List ConvertFault) : Bytes :=
  Bytes.ofNat faults.length ++ " error(s) decoding:\n\n" ++
    Bytes.join "\n" (Bytes.sort (faults.map fun f => "* " ++ f.message))

end ConvertFault

/-! ## Readings -/

namespace ConfigValue

def truthOf? (word : Bytes) : Option Bool :=
  if (["1", "t", "T", "TRUE", "true", "True"] : List Bytes).contains word then some true
  else if (["0", "f", "F", "FALSE", "false", "False", ""] : List Bytes).contains word then
    some false
  else none

/-- A value as a truth value. Any number but zero is true. -/
def toBool (name : Bytes) (value : ConfigValue) : Except ConvertFault Bool :=
  match value with
  | .bool b => .ok b
  | .int n => .ok (n != 0)
  | .float x => .ok (!x.isZero)
  | .text word =>
    match truthOf? word with
    | some b => .ok b
    | none => .error (.badBool name word)
  | _ => .error (.badType name "bool" value)

def toText (name : Bytes) (value : ConfigValue) : Except ConvertFault Bytes :=
  match value with
  | .text t => .ok t
  | .bool b => .ok (if b then "1" else "0")
  | .int n => .ok (Bytes.ofInt n)
  | .float x => .ok x.positional
  | _ => .error (.badType name "string" value)

/-- The items of a list as texts, numbered from `index`. An item without a value is empty. -/
def itemTexts (name : Bytes) : Nat → List ConfigValue → List (Except ConvertFault Bytes)
  | _, [] => []
  | index, item :: rest =>
    (match item with
    | .null => .ok []
    | _ => item.toText (name ++ "[" ++ Bytes.ofNat index ++ "]")) ::
      itemTexts name (index + 1) rest

/-- The values among some results, or all faults when there are any. -/
def gather {α : Type} : List (Except ConvertFault α) → Except (List ConvertFault) (List α)
  | [] => .ok []
  | .ok a :: rest => (gather rest).map (a :: ·)
  | .error f :: rest =>
    match gather rest with
    | .ok _ => .error [f]
    | .error fs => .error (f :: fs)

/-- A value as a list of texts. A single value is a list of one, but an empty table is an empty
list. -/
def toTexts (name : Bytes) (value : ConfigValue) : Except (List ConvertFault) (List Bytes) :=
  match value with
  | .list items => gather (itemTexts name 0 items)
  | .table [] => .ok []
  | single => gather (itemTexts name 0 [single])

end ConfigValue

/-! ## Tables -/

def lowerCase (s : Bytes) : Bytes := s.map Bytes.lowerByte

/-- A table of which entries are taken one by one, with the faults met so far. -/
structure OptionTable where
  /-- The entries that have not been taken. -/
  entries : NameMap ConfigValue
  faults : List ConvertFault

namespace OptionTable

/-- The name under which an entry is found: itself, or one that differs from it in case only. -/
def keyFor? (t : OptionTable) (name : Bytes) : Option Bytes :=
  if t.entries.has name then some name
  else t.entries.names.find? fun key => lowerCase key == lowerCase name

/-- Takes the entry of a name, read by `convert`. An entry that is missing or has no value gives the
default. -/
def take {α : Type} (t : OptionTable) (name : Bytes) (default : α)
    (convert : Bytes → ConfigValue → Except (List ConvertFault) α) : α × OptionTable :=
  match t.keyFor? name with
  | none => (default, t)
  | some key =>
    let rest := t.entries.erase key
    match t.entries.get? key with
    | none | some .null => (default, ⟨rest, t.faults⟩)
    | some value =>
      match convert name value with
      | .ok a => (a, ⟨rest, t.faults⟩)
      | .error fs => (default, ⟨rest, t.faults ++ fs⟩)

def takeBool (t : OptionTable) (name : Bytes) (default : Bool) : Bool × OptionTable :=
  t.take name default fun n v => (v.toBool n).mapError ([·])

def takeText (t : OptionTable) (name : Bytes) (default : Bytes) : Bytes × OptionTable :=
  t.take name default fun n v => (v.toText n).mapError ([·])

def takeTexts (t : OptionTable) (name : Bytes) : List Bytes × OptionTable :=
  t.take name [] ConfigValue.toTexts

/-- All faults of a table, entries that nothing took among them. -/
def allFaults (t : OptionTable) : List ConvertFault :=
  if t.entries.isEmpty then t.faults else t.faults ++ [.unusedKeys t.entries.names]

end OptionTable

end LuaLint
