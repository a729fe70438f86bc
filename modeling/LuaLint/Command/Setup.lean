import LuaLint.Config.Document
import LuaLint.Config.Settings
import LuaLint.Files.Search
import LuaLint.Library.Loader
import LuaLint.Linter

/-!
# Setting up a command

Where the configuration is found, and the linter that it asks for.
-/

namespace LuaLint

/-! ## Surroundings -/

/-- What the program sees of the world. -/
structure Surroundings where
  /-- The files, as seen from the working directory. -/
  files : FileTree
  input : Bytes
  environment : List (Bytes × Bytes)
  colorful : Bool

/-- The sources of settings with the place of the document among them. -/
structure Setup where
  sources : SettingSources
  name : Bytes
  /-- The directory in which the documents of standard libraries are looked for. -/
  directory : Bytes

/-! ## Faults -/

/-- Why a command cannot begin. -/
inductive SetupFault where
  | unsupported (extension : Bytes)
  /-- The document cannot be read from its file. -/
  | unreadable (path : Bytes) (e : ReadError)
  | malformed
  /-- Settings have values of the wrong type. -/
  | settings (name : Bytes) (faults : List ConvertFault)
  | library (name : Bytes) (e : LoadError)
  | config (name : Bytes) (problems : List ConfigProblem)

/-- The fault as text. Every problem of a configuration has a line of its own. -/
def SetupFault.message : SetupFault → Bytes
  | .unsupported extension =>
    "selene: reading config: Unsupported Config Type " ++ Quoted.text extension
  | .unreadable path e => "selene: reading config: " ++ e.message path
  | .malformed => "selene: reading config: While parsing config: malformed document"
  | .settings name faults => name ++ ": " ++ ConvertFault.report faults
  | .library name e =>
    "selene: loading standard library " ++ Quoted.text name ++ ": " ++ e.text
  | .config name problems =>
    let lines : List Bytes := problems.map fun p => "  " ++ p.located ++ "\n"
    "selene: invalid configuration in " ++ name ++ ":\n" ++ lines.flatten

/-! ## The document -/

namespace Setup

def defaultName : Bytes := "selene.toml"

/-- The documents in the working directory that are looked for, in this order. All of them are read
in the same format. -/
def candidates : List Bytes :=
  let base : Bytes := "selene"
  ConfigFormat.extensions.map (fun entry => base ++ "." ++ entry.1) ++ [base]

/-- The first document in the working directory. -/
def findDefault? (files : FileTree) : Option Bytes :=
  candidates.find? fun path =>
    match files.stat path with
    | .ok (.file _) => true
    | _ => false

def readDocument (files : FileTree) (path : Bytes) (format : ConfigFormat) :
    Except SetupFault (NameMap ConfigValue) :=
  match files.read path with
  | .error e => .error (.unreadable path e)
  | .ok text =>
    match format.read? text with
    | none => .error .malformed
    | some table => .ok table

/-- Finds and reads the document that is asked for or the first in the working directory. `std` is
the standard library that the command line names. -/
def locate (s : Surroundings) (config : Bytes) (std : Option Bytes) : Except SetupFault Setup :=
  if config.isEmpty then
    match findDefault? s.files with
    | none => .ok ⟨⟨[], s.environment, std⟩, defaultName, "."⟩
    | some path =>
      (readDocument s.files path .toml).map fun table => ⟨⟨table, s.environment, std⟩, path, "."⟩
  else
    let extension := (Path.extension config).drop 1
    match ConfigFormat.ofExtension? extension with
    | none => .error (.unsupported extension)
    | some format =>
      (readDocument s.files config format).map fun table =>
        ⟨⟨table, s.environment, std⟩, config, Path.directory config⟩

/-! ## The linter -/

def config (setup : Setup) : Except SetupFault Config :=
  (Config.ofSettings setup.sources.merged).mapError (.settings setup.name)

def library (setup : Setup) (files : FileTree) (name : Bytes) : Except SetupFault Library :=
  (Library.load files setup.directory name).mapError (.library name)

/-- The linter that the settings ask for, with the patterns of files that are not to be checked. -/
def linter (setup : Setup) (files : FileTree) : Except SetupFault (Linter × List Bytes) := do
  let config ← setup.config
  let library ← setup.library files config.stdName
  let linter ← (Linter.ofConfig config library).mapError (.config setup.name)
  return (linter, config.exclude)

end Setup

end LuaLint
