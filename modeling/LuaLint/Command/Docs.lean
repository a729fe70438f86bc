import LuaLint.Command.Check

/-!
# Documentation and libraries

The commands that tell about checks and standard libraries, and the one that converts a library.
-/

namespace LuaLint

/-! ## Checks and fields -/

def Lint.page (l : Lint) : Bytes :=
  l.name ++ " (default: " ++ l.defaultSeverity.label ++ ")\n\n" ++ l.doc.wrap textWidth ++ "\n"

def FieldShape.mustUse : FieldShape → Bool
  | .function f => f.mustUse
  | _ => false

namespace Field

def childLines (path : List Bytes) (f : Field) : Bytes :=
  f.children.flatMap fun (name, child) =>
    Bytes.copies 4 " " ++ child.signature (path ++ [name]) ++ [10]

def page (path : List Bytes) (f : Field) : Bytes :=
  let description : Bytes :=
    if f.description.isEmpty then [] else "\n" ++ indentedText f.description ++ "\n"
  let use : Bytes := if f.shape.mustUse then "\nThe return value must be used.\n" else []
  let deprecation : Bytes := match f.deprecated with
    | some d => "\nDeprecated: " ++ d.message ++ "\n"
    | none => []
  let children : Bytes := if f.hasChildren then "\nFields:\n" ++ childLines path f else []
  f.signature path ++ "\n" ++ description ++ use ++ deprecation ++ children

end Field

def Library.globalList (lib : Library) : Bytes :=
  (lib.globals.filter fun entry => entry.2.shape != .removed).flatMap fun (name, f) =>
    f.signature [name] ++ [10]

/-- What is said when a name stands neither for a check nor for a field. -/
def unknownTopic (query : Bytes) : Bytes :=
  let hint : Bytes := match query.nearest? Lint.names with
    | some name => " (did you mean `" ++ name ++ "`?)"
    | none => []
  "no lint or standard library field named `" ++ query ++ "`" ++ hint

/-- Tells about the field of a standard library that a name with dots stands for. -/
def Library.describe (lib : Library) (query : Bytes) : CommandResult :=
  let path := Bytes.split 46 query
  match lib.find? path with
  | some f => .printed 0 (f.page path)
  | none => .failed faultsFound (unknownTopic query)

/-- The name of the standard library in the settings, if they have one that can be shown. -/
def Setup.shownStd (setup : Setup) : Bytes :=
  match setup.sources.stdSetting with
  | .bool b => if b then "true" else "false"
  | .moment shown => shown
  | other => match other.toText [] with
    | .ok text => text
    | .error _ => []

/-- Tells about a check or a field, or lists the globals. -/
def Setup.explain (setup : Setup) (files : FileTree) (listing : Bool) (query : Option Bytes) :
    CommandResult :=
  match query.bind Lint.ofName? with
  | some l => .printed 0 l.page
  | none =>
    let name : Except SetupFault Bytes :=
      if setup.shownStd.isEmpty then setup.config.map Config.stdName else .ok setup.shownStd
    match name.bind (setup.library files) with
    | .error e => .failed badInvocation e.message
    | .ok lib => if listing then .printed 0 lib.globalList else lib.describe (query.getD [])

/-! ## Libraries -/

/-- What is told about a validated document, and the exit status. Decoding a field that is nested in
itself uses up the stack, and the program stops without a word. -/
def Library.verdict (files : FileTree) (path : Bytes) : Bytes × Nat :=
  match Library.loadFile files path with
  | .ok _ => (path ++ ": ok\n", 0)
  | .error e =>
    match e.root with
    | .faulty d =>
      if d.fault = .endless then ([], badInvocation) else (d.text ++ "\n", faultsFound)
    | _ => (e.text ++ "\n", faultsFound)

/-- Tells whether documents describe standard libraries, up to one at which the program stops. -/
def Library.validate (files : FileTree) (paths : List Bytes) : CommandResult :=
  let verdicts := paths.map (Library.verdict files)
  let told := verdicts.takeWhile fun verdict => verdict.2 != badInvocation
  .printed ((verdicts.map Prod.snd).foldl max 0) (told.flatMap Prod.fst)

/-- Prints a standard library, by default the one in the settings. -/
def Setup.printLibrary (setup : Setup) (files : FileTree) (name : Option Bytes) : CommandResult :=
  let chosen : Except SetupFault Bytes := match name with
    | some name => .ok name
    | none => setup.config.map Config.stdName
  match chosen with
  | .error e => .failed badInvocation e.message
  | .ok name =>
    match Library.load files setup.directory name with
    | .error e => .failed badInvocation ("selene: " ++ e.text)
    | .ok lib => .printed 0 lib.document

/-- Writes a library in the newer format next to its document. A document that is there already is
kept. -/
def upgradeDocument (files : FileTree) (path : Bytes) : CommandResult :=
  let target := path.dropEnd (Path.extension path) ++ ".yml"
  match files.stat target with
  | .ok _ => .failed faultsFound (target ++ " already exists, delete it before re-running")
  | .error _ =>
    match files.read path with
    | .error e => .failed badInvocation (e.message path)
    | .ok text =>
      match Library.upgrade (Path.last path) text with
      | .error e => .failed faultsFound e.text
      | .ok document => ⟨0, "wrote " ++ target ++ "\n", [], none, [(target, document)]⟩

end LuaLint
