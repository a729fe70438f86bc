import LuaLint.Library.ArgType
import LuaLint.Syntax.Chain

/-!
# Types of passed values

What is known of the value of an expression without running it: the types of literals and the
result types of operators. An expression that reads a variable or calls a function has no known
type.
-/

namespace LuaLint

/-! ## Types -/

inductive PassedType where
  | literal (text : Bytes)
  /-- A value of a type, whatever it is. -/
  | some (type : ArgType)
  deriving DecidableEq, Repr, Inhabited

namespace PassedType

def type : PassedType → ArgType
  | .literal _ => .string
  | .some t => t

def text? : PassedType → Option Bytes
  | .literal text => Option.some text
  | .some _ => none

/-- Whether a value may be passed where a type is declared. A string that is not known may be any
of the constants, and `...` may bring any value. -/
def fits (p : PassedType) (declared : ArgType) : Bool :=
  match declared, p with
  | .any, _ => true
  | .constant values, .literal text => values.contains text
  | .string, .literal _ => true
  | _, .literal _ => false
  | _, .some .vararg => true
  | .constant values, .some t => t == .string || t == .constant values
  | declared, .some t => t == declared

end PassedType

/-! ## Inference -/

/-- The type of the result of arithmetic on two values, which is that of the operands when they
agree and are not string literals. -/
def arithmeticType? : Option PassedType → Option PassedType → Option PassedType
  | some (.some t), some (.some u) => if t = u then some (.some t) else none
  | _, _ => none

def Expr.passedType? : Expr → Option PassedType
  | .nil _ => some (.some .nil)
  | .bool _ _ => some (.some .bool)
  | .number _ _ => some (.some .number)
  | .string _ _ value => some (.literal value)
  | .vararg _ => some (.some .vararg)
  | .function _ _ => some (.some .function)
  | .table _ _ _ => some (.some .table)
  | .paren _ inner _ => inner.passedType?
  | .unary op _ operand =>
    match op with
    | .length => some (.some .number)
    | .negate => operand.passedType?
    | .not => some (.some .bool)
    | .complement => none
  | .binary op _ left right =>
    match op with
    | .power | .modulo => some (.some .number)
    | .less | .greater | .lessEqual | .greaterEqual | .notEqual | .equal => some (.some .bool)
    | .concat => some (.some .string)
    | .add | .subtract | .multiply | .divide =>
      arithmeticType? left.passedType? right.passedType?
    | _ => none
  | _ => none

structure PassedArgument where
  span : Span
  type : Option PassedType
  deriving DecidableEq, Repr

def Call.passed (c : Call) : List PassedArgument :=
  c.args.map fun e => ⟨e.span, e.passedType?⟩

/-! ## Counting -/

/-- A comparison of the arguments that a call passes with those that are declared. -/
structure CountCheck where
  /-- The number of required arguments, without a required `...`. -/
  expected : Nat
  passed : Nat
  /-- Whether the last argument may stand for any number of values. -/
  maybeMore : Bool
  /-- Whether too few or too many arguments are passed. -/
  wrong : Bool
  /-- The reason of a required `...` that the call does not reach. -/
  missing : Option Bytes
  deriving DecidableEq, Repr

/-- Whether the last argument of a call may stand for any number of values. -/
def Call.maybeMore (c : Call) : Bool :=
  match c.form with
  | .parens _ _ => (c.args.getLast?).any Expr.isOpen
  | .literal => false

def countArguments (declared : List Argument) (c : Call) : CountCheck :=
  let passed := c.args.length
  let required := (declared.filter fun a => a.requirement.isRequired).length
  match declared.getLast? with
  | some ⟨.required reason, .vararg, _⟩ =>
    ⟨required - 1, passed, c.maybeMore, passed < required - 1 && !c.maybeMore,
      if declared.length > passed && !c.maybeMore then some reason else none⟩
  | some ⟨.optional, .vararg, _⟩ =>
    ⟨required, passed, c.maybeMore, passed < required && !c.maybeMore, none⟩
  | _ =>
    ⟨required, passed, c.maybeMore,
      (passed < required && !c.maybeMore) || passed > declared.length, none⟩

end LuaLint
