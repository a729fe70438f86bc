import LuaLint.Lint.Input

/-!
# Shadowing

Finds variables that hide another one of the same name.
-/

namespace LuaLint

/-- The variables that hide another one, apart from those that a pattern exempts. -/
def LintInput.shadowings (input : LintInput) (ignore : Option Pattern) : List Finding :=
  input.graph.vars.toList.filterMap fun v => do
    let hidden ← v.shadowed.bind fun id => input.graph.vars[id]?
    if v.name == varargName || matchesName ignore v.name then none
    else
      let before := (Label.ofSpan hidden.identifier).saying "previously defined here"
      return (Finding.about v.identifier ("shadowing variable `" ++ v.name ++ "`")).alsoAt [before]

end LuaLint
