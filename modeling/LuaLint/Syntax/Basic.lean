import LuaLint.Token.Basic

/-!
# Syntax trees

The tree of a Lua chunk. It accepts the union of Lua 5.1 to 5.4: `goto`, integer division, bitwise
operators and local attributes are all part of it. Every node records enough offsets to tell the
exact range of source it was read from.
-/

namespace LuaLint

/-! ## Names -/

/-- A name, declared or used. -/
structure Ident where
  /-- The offset of its first byte. -/
  pos : Nat
  name : Bytes
  deriving DecidableEq, Repr, Inhabited

def Ident.span (i : Ident) : Span := ⟨i.pos, i.pos + i.name.length⟩

/-- The attribute of a local variable, such as `<const>`: the name between the angle brackets. -/
structure Attribute extends Ident where
  /-- The offset past the closing bracket. -/
  stop : Nat
  deriving DecidableEq, Repr, Inhabited

structure LocalName where
  ident : Ident
  attrib : Option Attribute
  deriving DecidableEq, Repr, Inhabited

/-- The offset past a declared name and its attribute. -/
def LocalName.stop (n : LocalName) : Nat :=
  match n.attrib with
  | some a => a.stop
  | none => n.ident.span.stop

/-- The name of a function statement, such as `a.b.c:d`. -/
structure FuncName where
  base : Ident
  fields : List Ident
  method : Option Ident
  deriving DecidableEq, Repr, Inhabited

namespace FuncName

def names (n : FuncName) : List Ident := n.base :: n.fields

def path (n : FuncName) : List Bytes := (n.names ++ n.method.toList).map Ident.name

def span (n : FuncName) : Span :=
  ⟨n.base.pos, ((n.method.toList ++ n.names.reverse).headD n.base).span.stop⟩

end FuncName

/-! ## Operators -/

inductive UnaryOp where
  | not | negate | length | complement
  deriving DecidableEq, Repr

def UnaryOp.token : UnaryOp → TokenKind
  | .not => .keyword .not
  | .negate => .sign .minus
  | .length => .sign .hash
  | .complement => .sign .tilde

inductive BinaryOp where
  | or | and | less | greater | lessEqual | greaterEqual | notEqual | equal | bitOr | bitXor
  | bitAnd | shiftLeft | shiftRight | concat | add | subtract | multiply | divide | floorDivide
  | modulo | power
  deriving DecidableEq, Repr

namespace BinaryOp

def all : List BinaryOp :=
  [.or, .and, .less, .greater, .lessEqual, .greaterEqual, .notEqual, .equal, .bitOr, .bitXor,
    .bitAnd, .shiftLeft, .shiftRight, .concat, .add, .subtract, .multiply, .divide, .floorDivide,
    .modulo, .power]

def token : BinaryOp → TokenKind
  | .or => .keyword .or
  | .and => .keyword .and
  | .less => .sign .less
  | .greater => .sign .greater
  | .lessEqual => .sign .lessEqual
  | .greaterEqual => .sign .greaterEqual
  | .notEqual => .sign .notEqual
  | .equal => .sign .equal
  | .bitOr => .sign .pipe
  | .bitXor => .sign .tilde
  | .bitAnd => .sign .ampersand
  | .shiftLeft => .sign .shiftLeft
  | .shiftRight => .sign .shiftRight
  | .concat => .sign .concat
  | .add => .sign .plus
  | .subtract => .sign .minus
  | .multiply => .sign .star
  | .divide => .sign .slash
  | .floorDivide => .sign .doubleSlash
  | .modulo => .sign .percent
  | .power => .sign .caret

/-- How tightly an operator binds to its left operand. -/
def leftPower : BinaryOp → Nat
  | .or => 1
  | .and => 2
  | .less | .greater | .lessEqual | .greaterEqual | .notEqual | .equal => 3
  | .bitOr => 4
  | .bitXor => 5
  | .bitAnd => 6
  | .shiftLeft | .shiftRight => 7
  | .concat => 9
  | .add | .subtract => 10
  | .multiply | .divide | .floorDivide | .modulo => 11
  | .power => 14

/-- How tightly an operator binds to its right operand. Concatenation and exponentiation group to
the right, so this is less than on the left. -/
def rightPower : BinaryOp → Nat
  | .concat => 8
  | .power => 13
  | op => op.leftPower

def ofToken? (kind : TokenKind) : Option BinaryOp := all.find? fun op => op.token == kind

end BinaryOp

/-- How tightly a unary operator binds to its operand. -/
def UnaryOp.power : Nat := 12

def UnaryOp.ofToken? (kind : TokenKind) : Option UnaryOp :=
  [.not, .negate, .length, .complement].find? fun op : UnaryOp => op.token == kind

/-! ## Expressions and statements -/

inductive CallForm where
  /-- A list in parentheses, by the offsets of those. -/
  | parens (lparen rparen : Nat)
  /-- A single string or table without parentheses. -/
  | literal
  deriving DecidableEq, Repr, Inhabited

mutual

inductive Expr where
  | nil (pos : Nat)
  | bool (pos : Nat) (value : Bool)
  /-- A numeral, as written. -/
  | number (pos : Nat) (raw : Bytes)
  /-- A string literal, as written and as it reads. -/
  | string (pos : Nat) (raw value : Bytes)
  | vararg (pos : Nat)
  | name (ident : Ident)
  | function (pos : Nat) (body : FuncBody)
  | table (lbrace : Nat) (fields : List TableField) (rbrace : Nat)
  | binary (op : BinaryOp) (opPos : Nat) (left right : Expr)
  | unary (op : UnaryOp) (opPos : Nat) (operand : Expr)
  | paren (lparen : Nat) (inner : Expr) (rparen : Nat)
  /-- A field by name, `object.name`. -/
  | field (object : Expr) (name : Ident)
  /-- A field by key, `object[key]`. -/
  | element (object : Expr) (lbrack : Nat) (key : Expr) (rbrack : Nat)
  /-- A call, of a method when `method` is present. -/
  | call (callee : Expr) (method : Option Ident) (form : CallForm) (args : List Expr)

inductive TableField where
  | positional (value : Expr)
  | named (name : Ident) (value : Expr)
  /-- `[key] = value`, by the offset of the bracket. -/
  | keyed (lbrack : Nat) (key value : Expr)

inductive FuncBody where
  /-- `vararg` is the offset of a trailing `...`, `endPos` that of the closing `end`. -/
  | mk (lparen : Nat) (params : List Ident) (vararg : Option Nat) (rparen : Nat) (body : Block)
      (endPos : Nat)

/-- A statement. -/
inductive Stmt where
  /-- `local a, b = x, y`. -/
  | localAssign (pos : Nat) (names : List LocalName) (values : List Expr)
  | assign (targets : List Expr) (equal : Nat) (values : List Expr)
  | call (callee : Expr) (method : Option Ident) (form : CallForm) (args : List Expr)
  | doBlock (pos : Nat) (body : Block) (endPos : Nat)
  | whileLoop (pos : Nat) (cond : Expr) (body : Block) (endPos : Nat)
  | repeatLoop (pos : Nat) (body : Block) (untilPos : Nat) (cond : Expr)
  | ifThen (pos : Nat) (cond : Expr) (thenPos : Nat) (body : Block) (arms : List ElseIf)
      (otherwise : ElsePart) (endPos : Nat)
  | numericFor (pos : Nat) (var : Ident) (start limit : Expr) (step : Option Expr) (body : Block)
      (endPos : Nat)
  | genericFor (pos : Nat) (names : List Ident) (exprs : List Expr) (body : Block)
      (endPos : Nat)
  | function (pos : Nat) (name : FuncName) (body : FuncBody)
  | localFunction (pos : Nat) (name : Ident) (body : FuncBody)
  | ret (pos : Nat) (values : List Expr)
  | brk (pos : Nat)
  | goto (pos : Nat) (target : Ident)
  /-- `::name::`, up to the offset `stop`. -/
  | label (pos : Nat) (name : Ident) (stop : Nat)

/-- An arm `elseif cond then …`. -/
inductive ElseIf where
  | mk (pos : Nat) (cond : Expr) (thenPos : Nat) (body : Block)

/-- The `else` arm of a conditional, which may be missing. -/
inductive ElsePart where
  | absent
  | present (pos : Nat) (body : Block)

/-- A sequence of statements. `pos` is where an empty block stands. -/
inductive Block where
  | mk (pos : Nat) (stmts : List Stmt)

end

instance : Inhabited Expr := ⟨.nil 0⟩

/-! ## Ranges -/

namespace Expr

def start : Expr → Nat
  | .nil pos => pos
  | .bool pos _ => pos
  | .number pos _ => pos
  | .string pos _ _ => pos
  | .vararg pos => pos
  | .name i => i.pos
  | .function pos _ => pos
  | .table lbrace _ _ => lbrace
  | .binary _ _ left _ => left.start
  | .unary _ opPos _ => opPos
  | .paren lparen _ _ => lparen
  | .field object _ => object.start
  | .element object _ _ _ => object.start
  | .call callee _ _ _ => callee.start

mutual

def stop : Expr → Nat
  | .nil pos => pos + 3
  | .bool pos value => pos + if value then 4 else 5
  | .number pos raw => pos + raw.length
  | .string pos raw _ => pos + raw.length
  | .vararg pos => pos + 3
  | .name i => i.span.stop
  | .function _ (.mk _ _ _ _ _ endPos) => endPos + 3
  | .table _ _ rbrace => rbrace + 1
  | .binary _ _ _ right => right.stop
  | .unary _ _ operand => operand.stop
  | .paren _ _ rparen => rparen + 1
  | .field _ n => n.span.stop
  | .element _ _ _ rbrack => rbrack + 1
  | .call _ _ (.parens _ rparen) _ => rparen + 1
  | .call _ _ .literal args => stopOf 0 args

/-- The offset past the last of some expressions, or `default` without any. -/
def stopOf (default : Nat) : List Expr → Nat
  | [] => default
  | e :: rest => stopOf e.stop rest

end

def span (e : Expr) : Span := ⟨e.start, e.stop⟩

def spanOf (es : List Expr) : Span := ⟨(es.map start).headD 0, stopOf 0 es⟩

end Expr

namespace TableField

def value : TableField → Expr
  | .positional v => v
  | .named _ v => v
  | .keyed _ _ v => v

def span : TableField → Span
  | .positional v => v.span
  | .named n v => ⟨n.pos, v.stop⟩
  | .keyed lbrack _ v => ⟨lbrack, v.stop⟩

end TableField

namespace FuncBody

def params : FuncBody → List Ident
  | .mk _ params _ _ _ _ => params

def hasVararg : FuncBody → Bool
  | .mk _ _ vararg _ _ _ => vararg.isSome

/-- The offset past the closing `end`. -/
def stop : FuncBody → Nat
  | .mk _ _ _ _ _ endPos => endPos + 3

def span : FuncBody → Span
  | .mk lparen _ _ _ _ endPos => ⟨lparen, endPos + 3⟩

end FuncBody

namespace Stmt

def start : Stmt → Nat
  | .localAssign pos _ _ => pos
  | .assign targets _ _ => (Expr.spanOf targets).start
  | .call callee _ _ _ => callee.start
  | .doBlock pos _ _ => pos
  | .whileLoop pos _ _ _ => pos
  | .repeatLoop pos _ _ _ => pos
  | .ifThen pos _ _ _ _ _ _ => pos
  | .numericFor pos _ _ _ _ _ _ => pos
  | .genericFor pos _ _ _ _ => pos
  | .function pos _ _ => pos
  | .localFunction pos _ _ => pos
  | .ret pos _ => pos
  | .brk pos => pos
  | .goto pos _ => pos
  | .label pos _ _ => pos

def stop : Stmt → Nat
  | .localAssign pos names values =>
    Expr.stopOf ((names.getLast?.map LocalName.stop).getD (pos + 5)) values
  | .assign _ _ values => Expr.stopOf 0 values
  | .call callee method form args => (Expr.call callee method form args).stop
  | .doBlock _ _ endPos => endPos + 3
  | .whileLoop _ _ _ endPos => endPos + 3
  | .repeatLoop _ _ _ cond => cond.stop
  | .ifThen _ _ _ _ _ _ endPos => endPos + 3
  | .numericFor _ _ _ _ _ _ endPos => endPos + 3
  | .genericFor _ _ _ _ endPos => endPos + 3
  | .function _ _ body => body.stop
  | .localFunction _ _ body => body.stop
  | .ret pos values => Expr.stopOf (pos + 6) values
  | .brk pos => pos + 5
  | .goto _ target => target.span.stop
  | .label _ _ past => past

def span (s : Stmt) : Span := ⟨s.start, s.stop⟩

end Stmt

namespace Block

def stmts : Block → List Stmt
  | .mk _ stmts => stmts

/-- The range of the statements of a block, empty where there are none. -/
def span : Block → Span
  | .mk pos stmts =>
    match stmts, stmts.getLast? with
    | first :: _, some last => ⟨first.start, last.stop⟩
    | _, _ => ⟨pos, pos⟩

end Block

/-- The range of an arm, up to its `then` when it has no statements. -/
def ElseIf.span : ElseIf → Span
  | .mk pos _ thenPos body => ⟨pos, if body.stmts.isEmpty then thenPos + 4 else body.span.stop⟩

/-! ## Calls -/

structure Call where
  callee : Expr
  method : Option Ident
  form : CallForm
  args : List Expr

namespace Call

def expr (c : Call) : Expr := .call c.callee c.method c.form c.args

def span (c : Call) : Span := c.expr.span

def argsSpan (c : Call) : Span :=
  match c.form with
  | .parens lparen rparen => ⟨lparen, rparen + 1⟩
  | .literal => Expr.spanOf c.args

def calleeSpan (c : Call) : Span :=
  match c.method with
  | some m => ⟨c.callee.start, m.span.stop⟩
  | none => c.callee.span

end Call

/-! ## Chunks -/

structure Comment where
  /-- The offset of its first dash. -/
  pos : Nat
  text : Bytes
  /-- Whether code precedes the comment on its line. -/
  trailing : Bool
  deriving DecidableEq, Repr

namespace Comment

def span (c : Comment) : Span := ⟨c.pos, c.pos + c.text.length⟩

/-- The text of a comment without its markers. Brackets are removed only when the text ends in the
bracket that matches the opening one. -/
def content (c : Comment) : Bytes :=
  let text := (c.text.after? "--").getD c.text
  match text with
  | 91 :: rest =>
    let level := (rest.takeWhile (· == 61)).length
    let opening : Bytes := 91 :: List.replicate level 61 ++ [91]
    let closing : Bytes := 93 :: List.replicate level 61 ++ [93]
    if text.startsWith opening && text.endsWith closing then
      text.slice opening.length (text.length - closing.length)
    else text
  | _ => text

end Comment

/-- A parsed source. -/
structure Chunk where
  block : Block
  comments : List Comment
  /-- The ranges of the code tokens in source order. -/
  tokens : List Span
  /-- The number of bytes of the source. -/
  size : Nat

namespace Chunk

def firstCode? (c : Chunk) : Option Span := c.block.stmts.head?.map Stmt.span

def tokenAfter? (c : Chunk) (off : Int) : Option Span := c.tokens.find? fun t => off ≤ t.start

end Chunk

end LuaLint
