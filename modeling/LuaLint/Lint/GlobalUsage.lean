import LuaLint.Lint.Input

/-!
# Uses of the table of globals

Finds uses of `_G`.
-/

namespace LuaLint

def globalTableName : Bytes := "_G"

/-- The uses of `_G`, apart from accesses to fields that a pattern exempts. -/
def LintInput.globalTableUses (input : LintInput) (ignore : Option Pattern) : List Finding :=
  input.graph.references.toList.filterMap fun ref =>
    if ref.name != globalTableName || ref.resolved.isSome then none
    else if ref.indexing.head?.any fun entry => matchesName ignore entry.name then none
    else some (.about ref.span ("use of `" ++ ref.name ++
      "` is not allowed, structure your code in a more idiomatic way"))

end LuaLint
