import LuaLint.Diagnostic.Basic
import LuaLint.Library.Basic
import LuaLint.Pattern.Basic
import LuaLint.Scope.Query
import LuaLint.Syntax.Outline

/-!
# What checks look at

A check looks at a parsed chunk together with its source, its scope graph and the standard library.
-/

namespace LuaLint

/-- Everything that a check looks at. -/
structure LintInput where
  source : Bytes
  chunk : Chunk
  graph : ScopeGraph
  library : Library
  /-- The standard libraries that were asked for, unless the default is in effect. -/
  chosenStd : Option (List Bytes)

namespace LintInput

def textOf (input : LintInput) (span : Span) : Bytes := span.textOf input.source

/-- Whether the name that begins at an offset refers to a variable of the chunk. -/
def isLocalAt (input : LintInput) (off : Nat) : Bool :=
  input.graph.references.any fun ref => ref.span.start == off && ref.resolved.isSome

end LintInput

def matchesName (pattern : Option Pattern) (name : Bytes) : Bool :=
  pattern.any fun p => p.occursIn name.chars

end LuaLint
