import LuaLint.Syntax.Chain

/-!
# Uses of names

Where a chunk reads, writes and calls names, in source order. Of a chain such as `a.b.c` only the
whole is a use, and a chain with a call in it is used through its first call.
-/

namespace LuaLint

inductive NameUse where
  /-- The value of an expression without calls is read. -/
  | value (e : Expr)
  | target (e : Expr)
  /-- A call that is the first of its chain. -/
  | call (c : Call)

mutual

/-- The uses in an expression. `inner` tells whether the expression is the beginning of a longer
chain, which is a use as a whole. -/
def Expr.nameUses (inner : Bool) : Expr → List NameUse
  | .name i => if inner then [] else [.value (.name i)]
  | .function _ body => body.nameUses
  | .table _ fields _ => TableField.nameUses fields
  | .binary _ _ left right => left.nameUses false ++ right.nameUses false
  | .unary _ _ operand => operand.nameUses false
  | .paren _ e _ => e.nameUses false
  | .field object n =>
    let whole := Expr.field object n
    (if inner || whole.hasCall then [] else [.value whole]) ++ object.nameUses true
  | .element object lbrack key rbrack =>
    let whole := Expr.element object lbrack key rbrack
    (if inner || whole.hasCall then [] else [.value whole]) ++ object.nameUses true ++
      key.nameUses false
  | .call callee method form args =>
    let c : Call := ⟨callee, method, form, args⟩
    (if c.isFirst then [.call c] else []) ++ callee.nameUses true ++ Expr.allNameUses args
  | _ => []

def Expr.allNameUses : List Expr → List NameUse
  | [] => []
  | e :: rest => e.nameUses false ++ Expr.allNameUses rest

/-- The uses in the targets of an assignment, apart from the targets themselves. -/
def Expr.targetNameUses : List Expr → List NameUse
  | [] => []
  | e :: rest => e.nameUses true ++ Expr.targetNameUses rest

def TableField.nameUses : List TableField → List NameUse
  | [] => []
  | .positional value :: rest => value.nameUses false ++ TableField.nameUses rest
  | .named _ value :: rest => value.nameUses false ++ TableField.nameUses rest
  | .keyed _ key value :: rest =>
    key.nameUses false ++ value.nameUses false ++ TableField.nameUses rest

def FuncBody.nameUses : FuncBody → List NameUse
  | .mk _ _ _ _ body _ => body.nameUses

def Stmt.nameUses : Stmt → List NameUse
  | .localAssign _ _ values => Expr.allNameUses values
  | .assign targets _ values =>
    targets.map .target ++ Expr.targetNameUses targets ++ Expr.allNameUses values
  | .call callee method form args =>
    let c : Call := ⟨callee, method, form, args⟩
    (if c.isFirst then [.call c] else []) ++ callee.nameUses true ++ Expr.allNameUses args
  | .doBlock _ body _ => body.nameUses
  | .whileLoop _ cond body _ => cond.nameUses false ++ body.nameUses
  | .repeatLoop _ body _ cond => body.nameUses ++ cond.nameUses false
  | .ifThen _ cond _ body arms otherwise _ =>
    cond.nameUses false ++ body.nameUses ++ ElseIf.nameUses arms ++ otherwise.nameUses
  | .numericFor _ _ start limit step body _ =>
    start.nameUses false ++ limit.nameUses false ++
      (match step with
      | none => []
      | some e => e.nameUses false) ++ body.nameUses
  | .genericFor _ _ exprs body _ => Expr.allNameUses exprs ++ body.nameUses
  | .function _ _ body => body.nameUses
  | .localFunction _ _ body => body.nameUses
  | .ret _ values => Expr.allNameUses values
  | .brk _ => []
  | .goto _ _ => []
  | .label _ _ _ => []

def Stmt.allNameUses : List Stmt → List NameUse
  | [] => []
  | s :: rest => s.nameUses ++ Stmt.allNameUses rest

def ElseIf.nameUses : List ElseIf → List NameUse
  | [] => []
  | .mk _ cond _ body :: rest => cond.nameUses false ++ body.nameUses ++ ElseIf.nameUses rest

def ElsePart.nameUses : ElsePart → List NameUse
  | .absent => []
  | .present _ body => body.nameUses

def Block.nameUses : Block → List NameUse
  | .mk _ stmts => Stmt.allNameUses stmts

end

def Chunk.nameUses (c : Chunk) : List NameUse := c.block.nameUses

def Expr.staticPath? (e : Expr) : Option (List Bytes) := if e.hasCall then none else e.namePath?

def Call.path? (c : Call) : Option (List Bytes) := c.expr.namePath?

end LuaLint
