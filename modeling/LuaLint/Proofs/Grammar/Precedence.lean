import LuaLint.Proofs.Grammar.WellFormed

/-!
# Binding powers and the table of precedences

The parser works with two binding powers for every binary operator and one for the unary operators.
Comparing binding powers answers the same questions as the table of precedences: which operations
may stand without parentheses on the left of an operator, on its right, and after a unary operator.

Main statements: `BinaryOp.allowsLeft_iff`, `BinaryOp.allowsRight_iff`, `UnaryOp.allows_iff`.
-/

namespace LuaLint

open UnaryOp

namespace BinaryOp

theorem mem_all (op : BinaryOp) : op ∈ all := by
  cases op <;> decide

/-- Nothing but the two operators that group to the right binds less tightly on the right. -/
theorem rightPower_le_leftPower (op : BinaryOp) : op.rightPower ≤ op.leftPower := by
  cases op <;> decide

theorem leftPower_le_rightPower_succ (op : BinaryOp) : op.leftPower ≤ op.rightPower + 1 := by
  cases op <;> decide

theorem leftPower_pos (op : BinaryOp) : 0 < op.leftPower := by
  cases op <;> decide

theorem leftPower_le_unary (op : BinaryOp) (h : op.leftPower ≤ 13) :
    op.leftPower ≤ UnaryOp.power := by
  revert h
  cases op <;> decide

private theorem powers_left : ∀ op ∈ all, ∀ inner ∈ all, op.leftPower ≤ inner.rightPower ↔
      op.level < inner.level ∨ op.level = inner.level ∧ op.groupsRight = false := by
  decide +kernel

private theorem powers_right : ∀ op ∈ all, ∀ inner ∈ all, op.rightPower < inner.leftPower ↔
      op.level < inner.level ∨ op.level = inner.level ∧ op.groupsRight = true := by
  decide +kernel

/-- An operation may stand on the left of an operator when the operator does not bind more tightly
to it than the operation does to its own right operand. -/
theorem allowsLeft_iff (op inner : BinaryOp) (pos : Nat) (left right : Expr) :
    op.AllowsLeft (.binary inner pos left right) ↔ op.leftPower ≤ inner.rightPower :=
  (powers_left op (mem_all op) inner (mem_all inner)).symm

/-- A unary operation may stand on the left of an operator that binds less tightly. -/
theorem allowsLeft_unary_iff (op : BinaryOp) (inner : UnaryOp) (pos : Nat) (operand : Expr) :
    op.AllowsLeft (.unary inner pos operand) ↔ op.leftPower ≤ UnaryOp.power := by
  show op.level < UnaryOp.level ↔ _
  cases op <;> decide

/-- The same on the right of an operator. -/
theorem allowsRight_iff (op inner : BinaryOp) (pos : Nat) (left right : Expr) :
    op.AllowsRight (.binary inner pos left right) ↔ op.rightPower < inner.leftPower :=
  (powers_right op (mem_all op) inner (mem_all inner)).symm

end BinaryOp

/-- The same behind a unary operator. -/
theorem UnaryOp.allows_iff (inner : BinaryOp) (pos : Nat) (left right : Expr) :
    Allows (.binary inner pos left right) ↔ UnaryOp.power < inner.leftPower := by
  show UnaryOp.level < inner.level ↔ _
  cases inner <;> decide

/-! ## Operands within a limit -/

namespace Expr

/-- The operator at the top of an expression, if there is one, binds more tightly than `limit`. -/
def Exceeds (limit : Nat) : Expr → Prop
  | .binary op _ _ _ => limit < op.leftPower
  | _ => True

/-- An expression that is neither a binary nor a unary operation. -/
def IsSimple : Expr → Prop
  | .binary _ _ _ _ | .unary _ _ _ => False
  | _ => True

theorem IsCallable.isSimple {e : Expr} (h : e.IsCallable) : e.IsSimple := by
  cases e with
  | binary | unary => exact h
  | _ => trivial

theorem IsBareArgument.isSimple {e : Expr} (h : e.IsBareArgument) : e.IsSimple := by
  cases e with
  | binary | unary => exact h
  | _ => trivial

theorem IsSimple.exceeds {e : Expr} (h : e.IsSimple) (limit : Nat) : e.Exceeds limit := by
  cases e with
  | binary => exact h.elim
  | _ => trivial

theorem IsSimple.allowsLeft {e : Expr} (h : e.IsSimple) (op : BinaryOp) : op.AllowsLeft e := by
  cases e with
  | binary | unary => exact h.elim
  | _ => trivial

theorem allowsRight_iff_exceeds (op : BinaryOp) (e : Expr) :
    op.AllowsRight e ↔ e.Exceeds op.rightPower := by
  cases e with
  | binary inner pos left right => exact op.allowsRight_iff inner pos left right
  | _ => exact Iff.rfl

theorem unaryAllows_iff_exceeds (e : Expr) : Allows e ↔ e.Exceeds UnaryOp.power := by
  cases e with
  | binary inner pos left right => exact allows_iff inner pos left right
  | _ => exact Iff.rfl

end Expr

/-! ## Operators and their tokens -/

theorem BinaryOp.token_of_ofToken? {kind : TokenKind} {op : BinaryOp}
    (h : BinaryOp.ofToken? kind = some op) : kind = op.token := by
  have := List.find?_some h
  simpa using (beq_iff_eq.mp this).symm

theorem UnaryOp.token_of_ofToken? {kind : TokenKind} {op : UnaryOp}
    (h : ofToken? kind = some op) : kind = op.token := by
  have := List.find?_some h
  simpa using (beq_iff_eq.mp this).symm

theorem UnaryOp.ofToken?_token (op : UnaryOp) : ofToken? op.token = some op := by
  cases op <;> rfl

theorem BinaryOp.ofToken?_token (op : BinaryOp) : BinaryOp.ofToken? op.token = some op := by
  cases op <;> rfl

end LuaLint
