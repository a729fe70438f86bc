import LuaLint.Lint.Input

/-!
# Dropped results

Finds call statements of standard library functions that do nothing but compute a result.
-/

namespace LuaLint

namespace LintInput

def calledFunction? (input : LintInput) (c : CallRecord) : Option FunctionShape :=
  if (input.graph.references[c.reference]?).any fun ref => ref.resolved.isSome then none
  else match input.library.find? c.path with
    | some f =>
      match f.shape with
      | .function fn => some fn
      | _ => none
    | none => none

def droppedResults (input : LintInput) : List Finding :=
  input.graph.calls.toList.filterMap fun c =>
    if (input.calledFunction? c).any FunctionShape.mustUse then
      some (.about c.span
        ("unused return value of `" ++ Bytes.join "." c.path ++ "` must be used"))
    else none

end LintInput

end LuaLint
