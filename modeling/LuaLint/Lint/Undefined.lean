import LuaLint.Library.Builtin
import LuaLint.Lint.Input

/-!
# Undefined names

Finds reads of names that are neither declared nor part of the standard library.
-/

namespace LuaLint

/-- Whether a reference is `...` outside of every function, where it stands for the arguments of the
chunk. -/
def LintInput.isChunkVararg (input : LintInput) (ref : Reference) : Bool :=
  ref.name == varargName && (input.graph.functionAround? ref.scope).isNone

def LintInput.undefinedReads (input : LintInput) : List Finding :=
  input.graph.references.toList.filterMap fun ref =>
    if !ref.read || ref.resolved.isSome || input.isChunkVararg ref ||
        input.library.hasGlobal ref.name then none
    else some ((Finding.about ref.span ("`" ++ ref.name ++ "` is not defined")).noting
      (Library.possibleNotes [ref.name] input.chosenStd))

end LuaLint
