import LuaLint.Diagnostic.Basic

/-!
# Lints

The checks that can be made, with the names under which they are configured, their descriptions and
the severities that they have by default.
-/

namespace LuaLint

/-- A check. -/
inductive Lint where
  | deprecated
  | divideByZero
  | emptyIf
  | globalUsage
  | libraryUse
  | directives
  | tableClone
  | argumentCount
  | mustUse
  | shadowing
  | undefined
  | unscoped
  | unused
  deriving DecidableEq, Repr

namespace Lint

/-- The name under which a check is configured and reported. -/
def name : Lint → Bytes
  | .deprecated => "deprecated"
  | .divideByZero => "divide_by_zero"
  | .emptyIf => "empty_if"
  | .globalUsage => "global_usage"
  | .libraryUse => "incorrect_standard_library_use"
  | .directives => "invalid_lint_filter"
  | .tableClone => "manual_table_clone"
  | .argumentCount => "mismatched_arg_count"
  | .mustUse => "must_use"
  | .shadowing => "shadowing"
  | .undefined => "undefined_variable"
  | .unscoped => "unscoped_variables"
  | .unused => "unused_variable"

def defaultSeverity : Lint → Severity
  | .libraryUse | .directives | .argumentCount | .undefined => .error
  | _ => .warning

/-- The checks in ascending order of their names. -/
def all : List Lint :=
  [.deprecated, .divideByZero, .emptyIf, .globalUsage, .libraryUse, .directives, .tableClone,
    .argumentCount, .mustUse, .shadowing, .undefined, .unscoped, .unused]

def names : List Bytes := all.map name

def ofName? (word : Bytes) : Option Lint := all.find? fun l => l.name == word

/-- The description of a check, of which the first line is a summary. -/
def doc : Lint → Bytes
  | .deprecated => "Report uses of deprecated standard library functions and fields.

Options: allow, a list of dotted paths such as \"table.getn\" or \"bit32.*\"
that may be used without a warning."
  | .divideByZero => "Report division by the literal 0.  Use math.huge for infinity."
  | .emptyIf => "Report empty if, elseif and else blocks.

Options: comments_count (default false) makes a comment inside a block
count as content."
  | .globalUsage => "Report uses of _G.

Options: ignore_pattern, matched against the field being accessed."
  | .libraryUse => "Report incorrect uses of the standard library.

Checks that accessed fields exist, that read-only globals are not written,
that calls use the right number of arguments, the right call syntax and,
where it can be inferred, the right argument types."
  | .directives => "Report filter comments that are malformed, misplaced or conflicting.

This lint is reported while applying filter comments."
  | .tableClone => "Report for loops that copy every pair of a table into an empty table.

Only reported when the standard library has table.clone."
  | .argumentCount => "Report calls that pass more arguments than the called function takes.

Only functions defined in the same file are checked.  Passing fewer
arguments is allowed since the rest are nil.  When a variable is assigned
several functions, the most permissive parameter list is used."
  | .mustUse => "Report standard library calls whose return value is ignored.

Calling functions like math.floor as a statement has no effect."
  | .shadowing => "Report variables that shadow an outer variable of the same name.

Options: ignore_pattern (default \"^_\")."
  | .undefined => "Report reads of variables that are never defined.

A name that is not declared locally, not assigned globally and not part of
the configured standard library is almost certainly a typo."
  | .unscoped => "Report assignments to variables that were never declared local.

Options: ignore_pattern (default \"^_\")."
  | .unused => "Report variables that are defined but never read.

Writing into a table that is never read, directly or through a standard
library function that only writes to its argument, does not count as a use.

Options: allow_unused_self (default true), ignore_pattern (default \"^_\")."

def overview : Bytes :=
  all.flatMap fun l =>
    let summary := (l.doc.split 10).headD []
    let heading : Bytes := "  " ++ l.name ++ " (" ++ l.defaultSeverity.label ++ ")\n"
    heading ++ "    " ++ summary ++ "\n\n"

end Lint

end LuaLint
