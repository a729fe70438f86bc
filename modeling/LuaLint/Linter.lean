import LuaLint.Directive.Apply
import LuaLint.Lint.ArgumentCount
import LuaLint.Lint.Deprecated
import LuaLint.Lint.DivideByZero
import LuaLint.Lint.EmptyIf
import LuaLint.Lint.GlobalUsage
import LuaLint.Lint.LibraryUse
import LuaLint.Lint.Options
import LuaLint.Lint.Shadowing
import LuaLint.Lint.TableClone
import LuaLint.Lint.Undefined
import LuaLint.Lint.Unscoped
import LuaLint.Lint.Unused
import LuaLint.Scope.Resolve
import LuaLint.Syntax.Parser

/-!
# The linter

Runs all checks on a source. Checks whose severity is `allow` run as well, since a directive in the
source can give them another one.
-/

namespace LuaLint

/-- What a check finds. The check of directives finds nothing itself: its findings come up when
directives are applied. -/
def Lint.findings (o : LintOptions) (input : LintInput) : Lint → List Finding
  | .deprecated => input.deprecatedUses o.allowedPaths
  | .divideByZero => input.zeroDivisions
  | .emptyIf => input.emptyConditionals o.commentsCount
  | .globalUsage => input.globalTableUses o.globalPattern
  | .libraryUse => input.libraryMisuses
  | .directives => []
  | .tableClone => input.tableClones
  | .argumentCount => input.surplusArguments
  | .mustUse => input.droppedResults
  | .shadowing => input.shadowings o.shadowPattern
  | .undefined => input.undefinedReads
  | .unscoped => input.createdGlobals o.unscopedPattern
  | .unused => input.unusedVariables o.allowUnusedSelf o.unusedPattern

/-- The configured checks with a standard library. -/
structure Linter where
  settings : LintSettings
  library : Library
  /-- The standard libraries that were asked for, unless the default is in effect. -/
  chosenStd : Option (List Bytes)

namespace Linter

def ofConfig (c : Config) (library : Library) : Except (List ConfigProblem) Linter :=
  c.settings.map fun settings => ⟨settings, library, c.chosenStd⟩

/-- What the checks look at in a parsed source. -/
def input (l : Linter) (source : Bytes) (chunk : Chunk) : LintInput :=
  ⟨source, chunk, chunk.resolve, l.library, l.chosenStd⟩

/-- The findings of all checks with their codes and severities. -/
def reported (l : Linter) (input : LintInput) : List Diagnostic :=
  Lint.all.flatMap fun lint =>
    (lint.findings l.settings.options input).map fun f =>
      ⟨f, lint.name, l.settings.severity lint⟩

/-- The severity of a diagnostic in the end: that of a finding about directives comes from the
configuration alone. -/
def finalSeverity (l : Linter) (d : Diagnostic) : Diagnostic :=
  if d.code == Rule.code then { d with severity := l.settings.severity .directives } else d

def check (l : Linter) (source : Bytes) (chunk : Chunk) : List Diagnostic :=
  let ds := chunk.applyDirectives Lint.names (l.reported (l.input source chunk))
  Diagnostic.sort ((ds.map l.finalSeverity).filter fun d => d.severity != .allow)

def run (l : Linter) (source : Bytes) : Except ParseError (List Diagnostic) :=
  (Parser.parse source).map (l.check source)

end Linter

def ParseError.diagnostic (e : ParseError) : Diagnostic :=
  ⟨.about ⟨e.place.pos, e.place.pos⟩ e.message, "parse_error", .error⟩

end LuaLint
