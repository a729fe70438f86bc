import LuaLint.Lint.Options

/-!
# Settings

A configuration is put together from several sources. What the command line says comes before what
the environment says, and that before what stands in a document. Names of settings are in lower
case.
-/

namespace LuaLint

/-! ## Names of settings -/

namespace ConfigValue

mutual

def lowerNames : ConfigValue → ConfigValue
  | .list items => .list (lowerNamesOf items)
  | .table entries => .table (lowerNamesIn entries)
  | other => other

def lowerNamesOf : List ConfigValue → List ConfigValue
  | [] => []
  | v :: rest => v.lowerNames :: lowerNamesOf rest

/-- Several entries with their names in lower case. Of entries that come to have the same name, the
first is kept. -/
def lowerNamesIn : List (Bytes × ConfigValue) → NameMap ConfigValue
  | [] => []
  | (name, v) :: rest => (lowerNamesIn rest).insert (lowerCase name) v.lowerNames

end

mutual

/-- The settings within a value under their full names. A setting is a value that is no table. -/
def settings (name : Bytes) : ConfigValue → List (Bytes × ConfigValue)
  | .null => []
  | .table entries => settingsIn (name ++ ".") entries
  | other => [(name, other)]

def settingsIn (start : Bytes) : List (Bytes × ConfigValue) → List (Bytes × ConfigValue)
  | [] => []
  | (name, v) :: rest => settings (start ++ name) v ++ settingsIn start rest

end

def putAt (v : ConfigValue) : List Bytes → NameMap ConfigValue → NameMap ConfigValue
  | [], outer => outer
  | [name], outer => outer.insert name v
  | name :: next :: rest, outer =>
    let inner : NameMap ConfigValue := ((outer.get? name).bind entries?).getD []
    outer.insert name (.table (putAt v (next :: rest) inner))

end ConfigValue

/-! ## Sources -/

structure SettingSources where
  document : NameMap ConfigValue
  environment : List (Bytes × Bytes)
  /-- The standard library that the command line names. -/
  std : Option Bytes

namespace SettingSources

def stdKey : Bytes := "std"

def variableOf (key : Bytes) : Bytes := "SELENE_" ++ key.map Bytes.upperByte

/-- The value of a setting in the environment. A variable that is empty says nothing. -/
def fromEnvironment? (s : SettingSources) (key : Bytes) : Option Bytes :=
  ((s.environment.find? fun entry => entry.1 == variableOf key).map Prod.snd).filter
    fun value => !value.isEmpty

/-- The proper beginnings of a place, given by names joined with dots. -/
def outerKeys (key : Bytes) : List Bytes :=
  let names := Bytes.split 46 key
  (List.range (names.length - 1)).map fun n => Bytes.join "." (names.take (n + 1))

/-- A setting of the document as the environment has it. A variable that stands for a table hides
the settings in that table. -/
def inEnvironment (s : SettingSources) (setting : Bytes × ConfigValue) :
    Option (Bytes × ConfigValue) :=
  match s.fromEnvironment? setting.1 with
  | some value => some (setting.1, .text value)
  | none =>
    if (outerKeys setting.1).any fun key => (s.fromEnvironment? key).isSome then none
    else some setting

/-- The setting of the standard library. It is the only one that needs no entry in the document. -/
def stdSetting (s : SettingSources) : ConfigValue :=
  match s.std with
  | some name => .text name
  | none =>
    match s.fromEnvironment? stdKey with
    | some name => .text name
    | none =>
      match (ConfigValue.lowerNamesIn s.document).get? stdKey with
      | none | some .null => .text []
      | some value => value

/-- The settings of the document under their full names, that of the standard library apart. -/
def documentSettings (s : SettingSources) : List (Bytes × ConfigValue) :=
  ConfigValue.settingsIn [] ((ConfigValue.lowerNamesIn s.document).erase stdKey)

def merged (s : SettingSources) : NameMap ConfigValue :=
  let table : NameMap ConfigValue := (s.documentSettings.filterMap s.inEnvironment).foldl
    (fun table setting => setting.2.putAt (Bytes.split 46 setting.1) table) []
  table.insert stdKey s.stdSetting

def environmentNames (s : SettingSources) : List Bytes :=
  variableOf stdKey ::
    s.documentSettings.flatMap fun setting => (setting.1 :: outerKeys setting.1).map variableOf

end SettingSources

/-! ## Configurations -/

namespace ConfigValue

/-- Entries read with the faults met on the way. -/
structure TableReading (α : Type) where
  entries : NameMap α
  faults : List ConvertFault

def readEntries {α : Type} (convert : Bytes → ConfigValue → Except (List ConvertFault) α)
    (name : Bytes) (r : TableReading α) : List (Bytes × ConfigValue) → TableReading α
  | [] => r
  | (key, v) :: rest =>
    match convert (name ++ "[" ++ key ++ "]") v with
    | .ok a => readEntries convert name ⟨r.entries.insert key a, r.faults⟩ rest
    | .error fs => readEntries convert name ⟨r.entries, r.faults ++ fs⟩ rest

mutual

/-- Reads a value as a table. A list stands for its members put together. -/
def readTable {α : Type} (convert : Bytes → ConfigValue → Except (List ConvertFault) α)
    (name : Bytes) (r : TableReading α) : ConfigValue → TableReading α
  | .null => r
  | .table entries => readEntries convert name r entries
  | .list items => readTables convert name 0 r items
  | other => ⟨r.entries, r.faults ++ [.notTable name other]⟩

def readTables {α : Type} (convert : Bytes → ConfigValue → Except (List ConvertFault) α)
    (name : Bytes) (index : Nat) (r : TableReading α) : List ConfigValue → TableReading α
  | [] => r
  | v :: rest =>
    let r := readTable convert (name ++ "[" ++ Bytes.ofNat index ++ "]") r v
    readTables convert name (index + 1) r rest

end

def toTable {α : Type} (convert : Bytes → ConfigValue → Except (List ConvertFault) α)
    (name : Bytes) (v : ConfigValue) : Except (List ConvertFault) (NameMap α) :=
  let r := readTable convert name ⟨[], []⟩ v
  if r.faults.isEmpty then .ok r.entries else .error r.faults

/-- A value as patterns of files. A text holds several of them with commas between. -/
def toPatterns (name : Bytes) (v : ConfigValue) : Except (List ConvertFault) (List Bytes) :=
  match v with
  | .text [] => .ok []
  | .text t => .ok (t.split 44)
  | other => other.toTexts name

end ConfigValue

def Config.ofSettings (settings : NameMap ConfigValue) : Except (List ConvertFault) Config :=
  let textOf : Bytes → ConfigValue → Except (List ConvertFault) Bytes := fun name v =>
    match v with
    | .null => .ok []
    | _ => (v.toText name).mapError ([·])
  let t : OptionTable := ⟨settings, []⟩
  let (std, t) := t.take "std" [] textOf
  let (exclude, t) := t.take "exclude" [] ConfigValue.toPatterns
  let (lints, t) := t.take "lints" [] (ConfigValue.toTable textOf)
  let (options, t) := t.take "config" []
    (ConfigValue.toTable (ConfigValue.toTable fun _ v => .ok v))
  if t.faults.isEmpty then .ok ⟨std, exclude, lints, options⟩ else .error t.faults

end LuaLint
