import LuaLint.Syntax.Basic

/-!
# Well-formed syntax trees

Not every value of the tree types is the tree of a Lua chunk: a `return` may only come last in its
block, only variables and fields are assigned to, only names, parentheses and what follows them can
be called or indexed, and an operand must bind as tightly as the operator around it asks for.

The precedence of operators is laid down as in the reference manual, by a level for every operator
and the two operators that group to the right. Nothing here refers to the parser.
-/

namespace LuaLint

/-! ## Phrases -/

/-- A piece of syntax. The branches of a conditional are what follows its first block: the `elseif`
arms, the `else` arm and the offset of the closing `end`. -/
inductive Phrase where
  | expr (e : Expr)
  | exprs (es : List Expr)
  | args (form : CallForm) (es : List Expr)
  | field (f : TableField)
  | fields (fs : List TableField)
  | body (b : FuncBody)
  | stmt (s : Stmt)
  | stmts (ss : List Stmt)
  | branches (arms : List ElseIf) (otherwise : ElsePart) (endPos : Nat)

/-- A name or a literal, by what its token says. -/
inductive Word where
  | name (text : Bytes)
  | number (raw : Bytes)
  /-- A string literal as written and as it reads. -/
  | string (raw value : Bytes)

/-! ## Precedence -/

/-- The level of a binary operator in the table of precedences, from the loosest to the tightest. -/
def BinaryOp.level : BinaryOp → Nat
  | .or => 1
  | .and => 2
  | .less | .greater | .lessEqual | .greaterEqual | .notEqual | .equal => 3
  | .bitOr => 4
  | .bitXor => 5
  | .bitAnd => 6
  | .shiftLeft | .shiftRight => 7
  | .concat => 8
  | .add | .subtract => 9
  | .multiply | .divide | .floorDivide | .modulo => 10
  | .power => 12

/-- The level of the unary operators, below exponentiation and above all others. -/
def UnaryOp.level : Nat := 11

/-- The binary operators that group to the right. All others group to the left. -/
def BinaryOp.groupsRight : BinaryOp → Bool
  | .concat | .power => true
  | _ => false

/-- Whether an expression may stand without parentheses on the left of an operator. -/
def BinaryOp.AllowsLeft (op : BinaryOp) : Expr → Prop
  | .binary inner _ _ _ => op.level < inner.level ∨ op.level = inner.level ∧ op.groupsRight = false
  | .unary _ _ _ => op.level < UnaryOp.level
  | _ => True

/-- Whether an expression may stand without parentheses on the right of an operator. A unary
operator always may, since nothing can come between it and the operator before it. -/
def BinaryOp.AllowsRight (op : BinaryOp) : Expr → Prop
  | .binary inner _ _ _ => op.level < inner.level ∨ op.level = inner.level ∧ op.groupsRight = true
  | _ => True

/-- Whether an expression may stand without parentheses after a unary operator. -/
def UnaryOp.Allows : Expr → Prop
  | .binary inner _ _ _ => UnaryOp.level < inner.level
  | _ => True

/-! ## Shapes -/

namespace Expr

/-- An expression that can be indexed and called as it stands. -/
def IsCallable : Expr → Prop
  | .name _ | .paren _ _ _ | .field _ _ | .element _ _ _ _ | .call _ _ _ _ => True
  | _ => False

def IsTarget : Expr → Prop
  | .name _ | .field _ _ | .element _ _ _ _ => True
  | _ => False

/-- An expression that can be the only argument of a call without parentheses. -/
def IsBareArgument : Expr → Prop
  | .string _ _ _ | .table _ _ _ => True
  | _ => False

end Expr

def Stmt.IsReturn : Stmt → Prop
  | .ret _ _ => True
  | _ => False

/-! ## Well-formed phrases -/

/-- Trees that Lua can write. The vocabulary `lawful` says which names and literals may occur. -/
inductive WellFormed (lawful : Word → Prop) : Phrase → Prop where
  | nil {pos : Nat} : WellFormed lawful (.expr (.nil pos))
  | bool {pos : Nat} {value : Bool} : WellFormed lawful (.expr (.bool pos value))
  | number {pos : Nat} {raw : Bytes} :
      lawful (.number raw) → WellFormed lawful (.expr (.number pos raw))
  | string {pos : Nat} {raw value : Bytes} :
      lawful (.string raw value) → WellFormed lawful (.expr (.string pos raw value))
  | vararg {pos : Nat} : WellFormed lawful (.expr (.vararg pos))
  | name {i : Ident} : lawful (.name i.name) → WellFormed lawful (.expr (.name i))
  | functionExpr {pos : Nat} {b : FuncBody} :
      WellFormed lawful (.body b) → WellFormed lawful (.expr (.function pos b))
  | table {lbrace rbrace : Nat} {fs : List TableField} :
      WellFormed lawful (.fields fs) → WellFormed lawful (.expr (.table lbrace fs rbrace))
  | binary {op : BinaryOp} {opPos : Nat} {left right : Expr} :
      WellFormed lawful (.expr left) → op.AllowsLeft left →
      WellFormed lawful (.expr right) → op.AllowsRight right →
      WellFormed lawful (.expr (.binary op opPos left right))
  | unary {op : UnaryOp} {opPos : Nat} {operand : Expr} :
      WellFormed lawful (.expr operand) → UnaryOp.Allows operand →
      WellFormed lawful (.expr (.unary op opPos operand))
  | paren {lparen rparen : Nat} {inner : Expr} :
      WellFormed lawful (.expr inner) → WellFormed lawful (.expr (.paren lparen inner rparen))
  | fieldAccess {object : Expr} {i : Ident} :
      WellFormed lawful (.expr object) → object.IsCallable → lawful (.name i.name) →
      WellFormed lawful (.expr (.field object i))
  | element {object key : Expr} {lbrack rbrack : Nat} :
      WellFormed lawful (.expr object) → object.IsCallable → WellFormed lawful (.expr key) →
      WellFormed lawful (.expr (.element object lbrack key rbrack))
  | call {callee : Expr} {method : Option Ident} {form : CallForm} {es : List Expr} :
      WellFormed lawful (.expr callee) → callee.IsCallable →
      (∀ m ∈ method, lawful (.name m.name)) → WellFormed lawful (.args form es) →
      WellFormed lawful (.expr (.call callee method form es))
  | noExprs : WellFormed lawful (.exprs [])
  | consExpr {e : Expr} {es : List Expr} :
      WellFormed lawful (.expr e) → WellFormed lawful (.exprs es) →
      WellFormed lawful (.exprs (e :: es))
  | argList {lparen rparen : Nat} {es : List Expr} :
      WellFormed lawful (.exprs es) → WellFormed lawful (.args (.parens lparen rparen) es)
  | bareArg {e : Expr} :
      WellFormed lawful (.expr e) → e.IsBareArgument → WellFormed lawful (.args .literal [e])
  | positional {e : Expr} :
      WellFormed lawful (.expr e) → WellFormed lawful (.field (.positional e))
  | named {i : Ident} {e : Expr} :
      lawful (.name i.name) → WellFormed lawful (.expr e) →
      WellFormed lawful (.field (.named i e))
  | keyed {lbrack : Nat} {key e : Expr} :
      WellFormed lawful (.expr key) → WellFormed lawful (.expr e) →
      WellFormed lawful (.field (.keyed lbrack key e))
  | noFields : WellFormed lawful (.fields [])
  | consField {f : TableField} {fs : List TableField} :
      WellFormed lawful (.field f) → WellFormed lawful (.fields fs) →
      WellFormed lawful (.fields (f :: fs))
  | body {lparen rparen pos endPos : Nat} {params : List Ident} {vararg : Option Nat}
      {ss : List Stmt} :
      (∀ i ∈ params, lawful (.name i.name)) → WellFormed lawful (.stmts ss) →
      WellFormed lawful (.body (.mk lparen params vararg rparen (.mk pos ss) endPos))
  | localAssign {pos : Nat} {names : List LocalName} {values : List Expr} :
      names ≠ [] →
      (∀ n ∈ names, lawful (.name n.ident.name) ∧ ∀ a ∈ n.attrib, lawful (.name a.name)) →
      WellFormed lawful (.exprs values) →
      WellFormed lawful (.stmt (.localAssign pos names values))
  | assign {targets values : List Expr} {equal : Nat} :
      targets ≠ [] → (∀ e ∈ targets, e.IsTarget) → WellFormed lawful (.exprs targets) →
      values ≠ [] → WellFormed lawful (.exprs values) →
      WellFormed lawful (.stmt (.assign targets equal values))
  | callStmt {callee : Expr} {method : Option Ident} {form : CallForm} {es : List Expr} :
      WellFormed lawful (.expr (.call callee method form es)) →
      WellFormed lawful (.stmt (.call callee method form es))
  | doBlock {pos start endPos : Nat} {ss : List Stmt} :
      WellFormed lawful (.stmts ss) →
      WellFormed lawful (.stmt (.doBlock pos (.mk start ss) endPos))
  | whileLoop {pos start endPos : Nat} {cond : Expr} {ss : List Stmt} :
      WellFormed lawful (.expr cond) → WellFormed lawful (.stmts ss) →
      WellFormed lawful (.stmt (.whileLoop pos cond (.mk start ss) endPos))
  | repeatLoop {pos start untilPos : Nat} {cond : Expr} {ss : List Stmt} :
      WellFormed lawful (.stmts ss) → WellFormed lawful (.expr cond) →
      WellFormed lawful (.stmt (.repeatLoop pos (.mk start ss) untilPos cond))
  | ifThen {pos thenPos start endPos : Nat} {cond : Expr} {ss : List Stmt} {arms : List ElseIf}
      {otherwise : ElsePart} :
      WellFormed lawful (.expr cond) → WellFormed lawful (.stmts ss) →
      WellFormed lawful (.branches arms otherwise endPos) →
      WellFormed lawful (.stmt (.ifThen pos cond thenPos (.mk start ss) arms otherwise endPos))
  | numericFor {pos start endPos : Nat} {var : Ident} {first limit : Expr} {step : Option Expr}
      {ss : List Stmt} :
      lawful (.name var.name) → WellFormed lawful (.expr first) → WellFormed lawful (.expr limit) →
      WellFormed lawful (.exprs step.toList) → WellFormed lawful (.stmts ss) →
      WellFormed lawful (.stmt (.numericFor pos var first limit step (.mk start ss) endPos))
  | genericFor {pos start endPos : Nat} {names : List Ident} {es : List Expr} {ss : List Stmt} :
      names ≠ [] → (∀ i ∈ names, lawful (.name i.name)) →
      es ≠ [] → WellFormed lawful (.exprs es) → WellFormed lawful (.stmts ss) →
      WellFormed lawful (.stmt (.genericFor pos names es (.mk start ss) endPos))
  | functionStmt {pos : Nat} {n : FuncName} {b : FuncBody} :
      (∀ i ∈ n.names ++ n.method.toList, lawful (.name i.name)) → WellFormed lawful (.body b) →
      WellFormed lawful (.stmt (.function pos n b))
  | localFunction {pos : Nat} {i : Ident} {b : FuncBody} :
      lawful (.name i.name) → WellFormed lawful (.body b) →
      WellFormed lawful (.stmt (.localFunction pos i b))
  | ret {pos : Nat} {values : List Expr} :
      WellFormed lawful (.exprs values) → WellFormed lawful (.stmt (.ret pos values))
  | brk {pos : Nat} : WellFormed lawful (.stmt (.brk pos))
  | goto {pos : Nat} {i : Ident} :
      lawful (.name i.name) → WellFormed lawful (.stmt (.goto pos i))
  | label {pos stop : Nat} {i : Ident} :
      lawful (.name i.name) → WellFormed lawful (.stmt (.label pos i stop))
  | noStmts : WellFormed lawful (.stmts [])
  | consStmt {s : Stmt} {ss : List Stmt} :
      WellFormed lawful (.stmt s) → (s.IsReturn → ss = []) → WellFormed lawful (.stmts ss) →
      WellFormed lawful (.stmts (s :: ss))
  | noBranch {endPos : Nat} : WellFormed lawful (.branches [] .absent endPos)
  | elseBranch {pos start endPos : Nat} {ss : List Stmt} :
      WellFormed lawful (.stmts ss) →
      WellFormed lawful (.branches [] (.present pos (.mk start ss)) endPos)
  | elseIfBranch {pos thenPos start endPos : Nat} {cond : Expr} {ss : List Stmt}
      {arms : List ElseIf} {otherwise : ElsePart} :
      WellFormed lawful (.expr cond) → WellFormed lawful (.stmts ss) →
      WellFormed lawful (.branches arms otherwise endPos) →
      WellFormed lawful (.branches (.mk pos cond thenPos (.mk start ss) :: arms) otherwise endPos)

end LuaLint
