import LuaLint.Syntax.Basic

/-!
# Outlines

The outline of a chunk is its syntax tree with all kinds of nodes on one footing: every node has a
range and a list of children in source order. Walks over a chunk and searches by offset are
functions on outlines.
-/

namespace LuaLint

/-! ## Nodes -/

/-- A node of a syntax tree. Names are nodes wherever they stand, in the form of an expression. -/
inductive Node where
  | block (b : Block)
  | stmt (s : Stmt)
  | expr (e : Expr)
  | tableField (f : TableField)
  | elseIf (arm : ElseIf)
  | funcName (n : FuncName)
  | funcBody (b : FuncBody)

namespace Node

def span : Node → Span
  | .block b => b.span
  | .stmt s => s.span
  | .expr e => e.span
  | .tableField f => f.span
  | .elseIf arm => arm.span
  | .funcName n => n.span
  | .funcBody b => b.span

def isBlock : Node → Bool
  | .block _ => true
  | _ => false

end Node

/-! ## Outlines -/

inductive Outline where
  | mk (node : Node) (children : List Outline)

def Ident.outline (i : Ident) : Outline := .mk (.expr (.name i)) []

def FuncName.outline (n : FuncName) : Outline :=
  .mk (.funcName n) ((n.names ++ n.method.toList).map Ident.outline)

mutual

def Expr.outline : Expr → Outline
  | .function pos body => .mk (.expr (.function pos body)) [body.outline]
  | .table lbrace fields rbrace =>
    .mk (.expr (.table lbrace fields rbrace)) (TableField.outlines fields)
  | .binary op opPos left right =>
    .mk (.expr (.binary op opPos left right)) [left.outline, right.outline]
  | .unary op opPos operand => .mk (.expr (.unary op opPos operand)) [operand.outline]
  | .paren lparen inner rparen => .mk (.expr (.paren lparen inner rparen)) [inner.outline]
  | .field object name => .mk (.expr (.field object name)) [object.outline, name.outline]
  | .element object lbrack key rbrack =>
    .mk (.expr (.element object lbrack key rbrack)) [object.outline, key.outline]
  | .call callee method form args =>
    .mk (.expr (.call callee method form args))
      (callee.outline :: method.toList.map Ident.outline ++ Expr.outlines args)
  | e => .mk (.expr e) []

def Expr.outlines : List Expr → List Outline
  | [] => []
  | e :: rest => e.outline :: Expr.outlines rest

def TableField.outlines : List TableField → List Outline
  | [] => []
  | .positional value :: rest =>
    .mk (.tableField (.positional value)) [value.outline] :: TableField.outlines rest
  | .named name value :: rest =>
    .mk (.tableField (.named name value)) [name.outline, value.outline] ::
      TableField.outlines rest
  | .keyed lbrack key value :: rest =>
    .mk (.tableField (.keyed lbrack key value)) [key.outline, value.outline] ::
      TableField.outlines rest

def FuncBody.outline : FuncBody → Outline
  | .mk lparen params vararg rparen body endPos =>
    .mk (.funcBody (.mk lparen params vararg rparen body endPos))
      (params.map Ident.outline ++ [body.outline])

def Stmt.outline : Stmt → Outline
  | .localAssign pos names values =>
    .mk (.stmt (.localAssign pos names values))
      (names.map (fun n => n.ident.outline) ++ Expr.outlines values)
  | .assign targets equal values =>
    .mk (.stmt (.assign targets equal values)) (Expr.outlines targets ++ Expr.outlines values)
  | .call callee method form args =>
    .mk (.stmt (.call callee method form args))
      [.mk (.expr (.call callee method form args))
        (callee.outline :: method.toList.map Ident.outline ++ Expr.outlines args)]
  | .doBlock pos body endPos => .mk (.stmt (.doBlock pos body endPos)) [body.outline]
  | .whileLoop pos cond body endPos =>
    .mk (.stmt (.whileLoop pos cond body endPos)) [cond.outline, body.outline]
  | .repeatLoop pos body untilPos cond =>
    .mk (.stmt (.repeatLoop pos body untilPos cond)) [body.outline, cond.outline]
  | .ifThen pos cond thenPos body arms otherwise endPos =>
    .mk (.stmt (.ifThen pos cond thenPos body arms otherwise endPos))
      (cond.outline :: body.outline :: ElseIf.outlines arms ++ otherwise.outlines)
  | .numericFor pos var start limit step body endPos =>
    .mk (.stmt (.numericFor pos var start limit step body endPos))
      (var.outline :: start.outline :: limit.outline ::
        (match step with
        | none => []
        | some e => [e.outline]) ++ [body.outline])
  | .genericFor pos names exprs body endPos =>
    .mk (.stmt (.genericFor pos names exprs body endPos))
      (names.map Ident.outline ++ Expr.outlines exprs ++ [body.outline])
  | .function pos name body =>
    .mk (.stmt (.function pos name body)) [name.outline, body.outline]
  | .localFunction pos name body =>
    .mk (.stmt (.localFunction pos name body)) [name.outline, body.outline]
  | .ret pos values => .mk (.stmt (.ret pos values)) (Expr.outlines values)
  | .brk pos => .mk (.stmt (.brk pos)) []
  | .goto pos target => .mk (.stmt (.goto pos target)) [target.outline]
  | .label pos name stop => .mk (.stmt (.label pos name stop)) [name.outline]

def Stmt.outlines : List Stmt → List Outline
  | [] => []
  | s :: rest => s.outline :: Stmt.outlines rest

def ElseIf.outlines : List ElseIf → List Outline
  | [] => []
  | .mk pos cond thenPos body :: rest =>
    .mk (.elseIf (.mk pos cond thenPos body)) [cond.outline, body.outline] ::
      ElseIf.outlines rest

def ElsePart.outlines : ElsePart → List Outline
  | .absent => []
  | .present _ body => [body.outline]

def Block.outline : Block → Outline
  | .mk pos stmts => .mk (.block (.mk pos stmts)) (Stmt.outlines stmts)

end

def Chunk.outline (c : Chunk) : Outline := c.block.outline

namespace Outline

def node : Outline → Node
  | .mk node _ => node

/-! ## Walks -/

mutual

def levels (depth : Nat) : Outline → List (Nat × Node)
  | .mk node children => (depth, node) :: levelsOf (depth + 1) children

def levelsOf (depth : Nat) : List Outline → List (Nat × Node)
  | [] => []
  | o :: rest => levels depth o ++ levelsOf depth rest

end

def nodes (o : Outline) : List Node := (o.levels 0).map Prod.snd

mutual

/-- The nodes of an outline whose ranges contain an offset, from the outside in. A node whose range
does not contain it is not searched. -/
def around (off : Int) : Outline → List Node
  | .mk node children =>
    if node.span.covers off then node :: aroundIn off children else []

/-- The nodes of several outlines whose ranges contain an offset. -/
def aroundIn (off : Int) : List Outline → List Node
  | [] => []
  | o :: rest => around off o ++ aroundIn off rest

end

end Outline

def Chunk.nodes (c : Chunk) : List Node := c.outline.nodes

end LuaLint
