import LuaLint.Command.Basic
import LuaLint.Command.Docs
import LuaLint.Editor.Wire

/-!
# The program

What the program does with a command line.
-/

namespace LuaLint

/-- A short explanation of the program. -/
def usage : Bytes :=
  "selene is a static analyzer for Lua.\n\nUsage:\n  selene [flags] [files...]\n" ++
    "  selene [command]\n\nAvailable Commands:\n" ++
    "  doc          Show documentation for lints and standard library globals\n" ++
    "  lint         Lint Lua source files\n" ++
    "  lsp          Start the selene Language Server Protocol server\n" ++
    "  std          Print or validate standard library schemas\n" ++
    "  upgrade-std  Convert a TOML standard library into the YAML format\n"

/-- The palette that the flags ask for. A word that is no mode is ignored. -/
def FlagReading.palette (r : FlagReading) (colorful : Bool) : Palette :=
  .ofMode (((r.last? .color).bind ColorMode.ofName?).getD .auto) colorful

def FlagReading.checkRequest (r : FlagReading) (colorful : Bool) (excludes : List Bytes) :
    CheckRequest :=
  let form : ReportForm :=
    if r.isOn .json then .json
    else if r.isOn .quiet then .brief
    else .snippets (r.palette colorful)
  ⟨form, !r.isOn .json, r.isOn .timings, excludes ++ r.all .exclude, r.args⟩

def FlagReading.check (r : FlagReading) (s : Surroundings) (setup : Setup) : CommandResult :=
  if r.isOn .list then .printed 0 Lint.catalogue
  else match setup.linter s.files with
    | .error e => .failed badInvocation e.message
    | .ok (linter, excludes) => (r.checkRequest s.colorful excludes).run s linter

/-- Runs a command with its flags. The whole conversation with an editor is read from the standard
input. -/
def Command.run (c : Command) (r : FlagReading) (s : Surroundings) (setup : Setup) :
    CommandResult :=
  match c with
  | .root => if r.args.isEmpty && !r.isOn .list then .printed 0 usage else r.check s setup
  | .lint => r.check s setup
  | .std =>
    match r.all .validate with
    | [] => setup.printLibrary s.files r.args.head?
    | paths => Library.validate s.files paths
  | .doc =>
    if r.args.isEmpty && !r.isOn .listGlobals then .printed badInvocation usage
    else setup.explain s.files (r.isOn .listGlobals) r.args.head?
  | .lsp =>
    match setup.linter s.files with
    | .error e => .failed badInvocation e.message
    | .ok (linter, _) => .printed 0 (linter.converse s.input)
  | .upgradeStd => upgradeDocument s.files (r.args.headD [])
  | .help | .completion => .printed 0 usage

/-- The command, its flags and its setup, or the result if it ends there. Flags are read first, then
the configuration, and only then the arguments are counted. -/
def prepare (s : Surroundings) (args : List Bytes) :
    Except CommandResult (Command × FlagReading × Setup) :=
  let (command, rest) := Command.select args
  match FlagReading.ofArgs command.flags rest with
  | .error e => .error (.failed badInvocation e.message)
  | .ok r =>
    if r.isOn .help then .error (.printed 0 usage)
    else match Setup.locate s ((r.last? .config).getD []) (r.last? .std) with
      | .error e => .error (.failed badInvocation e.message)
      | .ok setup =>
        match command.argumentFault? r.args with
        | some fault => .error (.failed badInvocation fault.message)
        | none => .ok (command, r, setup)

def runProgram (s : Surroundings) (args : List Bytes) : CommandResult :=
  match prepare s args with
  | .error result => result
  | .ok (command, r, setup) => command.run r s setup

/-- The variables of the environment that can have an effect on a command line. -/
def relevantVariables (s : Surroundings) (args : List Bytes) : List Bytes :=
  match prepare s args with
  | .error _ => []
  | .ok (_, _, setup) => setup.sources.environmentNames

end LuaLint
