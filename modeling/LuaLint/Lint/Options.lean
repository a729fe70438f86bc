import LuaLint.Config.Convert
import LuaLint.Lint.Basic
import LuaLint.Pattern.Reader
import LuaLint.Text.Distance

/-!
# Configuration

What a configuration says about the checks: their severities, and the options of those that have
some. A configuration is checked as a whole, and every problem with it is reported.
-/

namespace LuaLint

/-! ## Problems -/

inductive ConfigFault where
  | unknownLint (name : Bytes)
  | badSeverity (word : Bytes)
  | badOptions (faults : List ConvertFault)
  | badPattern (fault : PatternFault)

structure ConfigProblem where
  /-- The check whose options are being read, if that is so. -/
  lint : Option Lint
  /-- The place of the entry, its names joined by dots. -/
  key : Bytes
  fault : ConfigFault

namespace ConfigProblem

def reason (p : ConfigProblem) : Bytes :=
  match p.fault with
  | .unknownLint name => "no lint named `" ++ name ++ "` exists"
  | .badSeverity word => Severity.unknownName word
  | .badOptions faults => ConvertFault.report faults
  | .badPattern fault => fault.message

/-- The name of a check that may have been meant. -/
def suggestion? (p : ConfigProblem) : Option Bytes :=
  match p.fault with
  | .unknownLint name => name.nearest? Lint.names
  | _ => none

def located (p : ConfigProblem) : Bytes :=
  let hint : Bytes := match p.suggestion? with
    | some name => " (did you mean `" ++ name ++ "`?)"
    | none => []
  p.key ++ ": " ++ p.reason ++ hint

def text (p : ConfigProblem) : Bytes :=
  match p.lint with
  | some l => l.name ++ ": " ++ p.located
  | none => p.located

end ConfigProblem

/-! ## Options -/

/-- The options of all checks. A pattern that is missing matches nothing. -/
structure LintOptions where
  allowedPaths : List (List Bytes)
  /-- Whether a comment makes an arm of a conditional count as filled. -/
  commentsCount : Bool
  globalPattern : Option Pattern
  shadowPattern : Option Pattern
  unscopedPattern : Option Pattern
  allowUnusedSelf : Bool
  unusedPattern : Option Pattern
  deriving DecidableEq, Repr

namespace LintOptions

def underscored : Pattern :=
  .seq (.assert .textStart) (.one (.single false 95))

/-- The options of a configuration that sets none. -/
def default : LintOptions :=
  ⟨[], false, none, some underscored, some underscored, true, some underscored⟩

end LintOptions

structure Config where
  /-- The name of the standard library, or nothing for the default one. -/
  std : Bytes
  exclude : List Bytes
  /-- The words for the severities of checks. -/
  lints : NameMap Bytes
  options : NameMap (NameMap ConfigValue)

namespace Config

def empty : Config := ⟨[], [], [], []⟩

def stdName (c : Config) : Bytes := if c.std.isEmpty then "lua51" else c.std

/-- The standard libraries that were asked for, unless the default is in effect. -/
def chosenStd (c : Config) : Option (List Bytes) :=
  if c.std.isEmpty then none else some (c.std.split 43)

/-! ## Names and severities -/

def nameProblems (c : Config) : List ConfigProblem :=
  let ofLint : Bytes × Bytes → List ConfigProblem := fun (name, word) =>
    let key : Bytes := "lints." ++ name
    if (Lint.ofName? name).isNone then [⟨none, key, .unknownLint name⟩]
    else if (Severity.ofName? word).isNone then [⟨none, key, .badSeverity word⟩]
    else []
  let ofOptions : Bytes → List ConfigProblem := fun name =>
    if (Lint.ofName? name).isNone then [⟨none, "config." ++ name, .unknownLint name⟩] else []
  c.lints.flatMap ofLint ++ c.options.names.flatMap ofOptions

def severityOf (c : Config) (l : Lint) : Severity :=
  match c.lints.get? l.name with
  | some word => (Severity.ofName? word).getD l.defaultSeverity
  | none => l.defaultSeverity

/-! ## Reading options -/

def table (c : Config) (l : Lint) : OptionTable := ⟨(c.options.get? l.name).getD [], []⟩

def tableProblem? (l : Lint) (t : OptionTable) : Option ConfigProblem :=
  if t.allFaults.isEmpty then none
  else some ⟨some l, "config." ++ l.name, .badOptions t.allFaults⟩

/-- A pattern written in the options of a check. The empty text is no pattern. -/
def patternOf (l : Lint) (text : Bytes) : Except ConfigProblem (Option Pattern) :=
  if text.isEmpty then .ok none
  else match Pattern.read text.chars with
    | .ok p => .ok (some p)
    | .error f =>
      .error ⟨some l, "config." ++ l.name ++ ".ignore_pattern", .badPattern f⟩

/-- A value, provided that the table it was taken from is without fault. -/
def whenClean {α : Type} (l : Lint) (t : OptionTable) (value : Except ConfigProblem α) :
    Except ConfigProblem α :=
  match tableProblem? l t with
  | some p => .error p
  | none => value

/-- The options of the check for deprecated names: the paths that may be used. -/
def allowedPaths (c : Config) : Except ConfigProblem (List (List Bytes)) :=
  let (paths, t) := (c.table .deprecated).takeTexts "allow"
  whenClean .deprecated t (.ok (paths.map fun path => path.split 46))

/-- The option of the check for empty arms. -/
def commentsCount (c : Config) : Except ConfigProblem Bool :=
  let (count, t) := (c.table .emptyIf).takeBool "comments_count" false
  whenClean .emptyIf t (.ok count)

def onlyPattern (c : Config) (l : Lint) (default : Bytes) :
    Except ConfigProblem (Option Pattern) :=
  let (text, t) := (c.table l).takeText "ignore_pattern" default
  whenClean l t (patternOf l text)

def unusedOptions (c : Config) : Except ConfigProblem (Bool × Option Pattern) :=
  let (allowSelf, t) := (c.table .unused).takeBool "allow_unused_self" true
  let (text, t) := t.takeText "ignore_pattern" "^_"
  whenClean .unused t ((patternOf .unused text).map fun p => (allowSelf, p))

def problemOf {α : Type} : Except ConfigProblem α → List ConfigProblem
  | .ok _ => []
  | .error p => [p]

def lintOptions (c : Config) : Except (List ConfigProblem) LintOptions :=
  let paths := c.allowedPaths
  let comments := c.commentsCount
  let global := c.onlyPattern .globalUsage []
  let shadow := c.onlyPattern .shadowing "^_"
  let unscoped := c.onlyPattern .unscoped "^_"
  let unused := c.unusedOptions
  match paths, comments, global, shadow, unscoped, unused with
  | .ok paths, .ok comments, .ok global, .ok shadow, .ok unscoped, .ok (allowSelf, unused) =>
    .ok ⟨paths, comments, global, shadow, unscoped, allowSelf, unused⟩
  | _, _, _, _, _, _ =>
    .error (problemOf paths ++ problemOf comments ++ problemOf global ++ problemOf shadow ++
      problemOf unscoped ++ problemOf unused)

end Config

structure LintSettings where
  severity : Lint → Severity
  options : LintOptions

/-- The severities and options that a configuration asks for. Options are read only when all names
and severities are right. -/
def Config.settings (c : Config) : Except (List ConfigProblem) LintSettings :=
  match c.nameProblems with
  | [] => c.lintOptions.map fun o => ⟨c.severityOf, o⟩
  | problems => .error problems

end LuaLint
