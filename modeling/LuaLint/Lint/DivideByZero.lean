import LuaLint.Lint.Input

/-!
# Division by zero

Finds divisions of a plain value by the literal zero.
-/

namespace LuaLint

namespace Expr

def isZero : Expr → Bool
  | .number _ raw => raw == "0"
  | _ => false

def isOperation : Expr → Bool
  | .binary _ _ _ _ => true
  | .unary _ _ _ => true
  | _ => false

end Expr

/-- The divisions of a plain value, other than zero, by the literal zero. -/
def LintInput.zeroDivisions (input : LintInput) : List Finding :=
  input.chunk.nodes.filterMap fun node =>
    match node with
    | .expr (.binary .divide opPos left right) =>
      if !left.isOperation && right.isZero && !left.isZero then
        some (.about (Expr.binary .divide opPos left right).span
          "dividing by zero is not allowed, use math.huge instead")
      else none
    | _ => none

end LuaLint
