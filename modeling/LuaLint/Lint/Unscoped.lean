import LuaLint.Lint.Input

/-!
# Unscoped variables

Finds assignments that create globals.
-/

namespace LuaLint

def LintInput.createsGlobal (input : LintInput) (ref : Reference) : Bool :=
  ref.write == some .assign && ref.indexing.isEmpty &&
    match input.graph.variableOf? ref with
    | some v => v.hoisted && v.identifier == ref.span
    | none => true

/-- The assignments that create a global which is not part of the standard library, apart from names
that a pattern exempts. -/
def LintInput.createdGlobals (input : LintInput) (ignore : Option Pattern) : List Finding :=
  input.graph.references.toList.filterMap fun ref =>
    if !input.createsGlobal ref || matchesName ignore ref.name ||
        input.library.hasGlobal ref.name then none
    else some (.about ref.span
      ("`" ++ ref.name ++ "` is not declared locally, and will be available in every scope"))

end LuaLint
