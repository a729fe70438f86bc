import LuaLint.Token.Lexer
import LuaLint.Syntax.Basic
import LuaLint.Syntax.Literal

/-!
# Parser

A recursive descent parser from tokens to syntax trees. It stops at the first error. It reads its
tokens one at a time and looks one token ahead. Comments are set aside on the way to the next token;
a comment is trailing when the code token taken last ends on its line.

Every recursive call of the grammar spends one unit of fuel. Between two calls that take no token
there are only a fixed number of others, so a multiple of the number of tokens is always enough.
-/

namespace LuaLint

/-! ## Errors -/

inductive Expectation where
  | token (kind : TokenKind)
  | closing (kind : TokenKind) (opener : String) (pos : Nat)
  | expression
  | arguments
  | endOfSource
  deriving DecidableEq, Repr

def Expectation.text : Expectation → Bytes
  | .token kind => "'" ++ kind.label ++ "'"
  | .closing kind opener pos =>
    "'" ++ kind.label ++ "' to close '" ++ opener ++ "' at byte " ++ Bytes.ofNat pos
  | .expression => "expression"
  | .arguments => "function arguments"
  | .endOfSource => "'<eof>'"

/-- Why a source is not a chunk. -/
inductive SyntaxFault where
  /-- A piece of source that is no token. -/
  | lexical (cause : LexicalError)
  | expected (want : Expectation) (near : Token)
  | escape (cause : EscapeError)
  | notStatement
  | notAssignable
  | exhausted
  deriving DecidableEq, Repr

def Token.shown (t : Token) : Bytes :=
  match t.kind with
  | .eof => "<eof>"
  | .name | .number | .string | .longString => "'" ++ t.text ++ "'"
  | kind => "'" ++ kind.label ++ "'"

def SyntaxFault.message : SyntaxFault → Bytes
  | .lexical cause => cause.message
  | .expected want near => "expected " ++ want.text ++ " near " ++ near.shown
  | .escape cause => cause.message
  | .notStatement => "syntax error: expression is not a statement"
  | .notAssignable => "syntax error: cannot assign to expression"
  | .exhausted => "syntax error: nesting is too deep"

/-- Where a fault was met. -/
inductive Place where
  /-- At a token, with line and column. -/
  | mark (mark : Mark)
  /-- At an offset of which line and column are not known. -/
  | offset (pos : Nat)
  deriving DecidableEq, Repr

def Place.location (file : Bytes) : Place → Location
  | .mark m => .ofMark file m
  | .offset pos => .ofOffset file pos

def Place.pos : Place → Nat
  | .mark m => m.pos
  | .offset pos => pos

/-- A fault and where it was met. -/
structure ParseError where
  place : Place
  fault : SyntaxFault
  deriving DecidableEq, Repr

def ParseError.message (e : ParseError) : Bytes := e.fault.message

/-- An error with its place in a named source in front. -/
def ParseError.text (file : Bytes) (e : ParseError) : Bytes :=
  (e.place.location file).located e.message

/-! ## Token streams -/

/-- The tokens of a source as the parser reads them, with one token of lookahead, and what has been
collected so far, newest first. -/
structure Stream where
  /-- The tokens that the lexer is still to give. Then it gives the end token again and again. -/
  unread : List Token
  eof : Token
  /-- The token taken last. -/
  current : Option Token := none
  /-- The token ahead, once it has been looked at. -/
  seen : Option Token := none
  comments : List Comment := []
  /-- The ranges of the code tokens taken so far. -/
  tokens : List Span := []
  /-- The line on which the last of them ends. -/
  lastLine : Option Nat := none

namespace Stream

def ofTokens (tokens : List Token) : Stream where
  unread := tokens.dropLast
  eof := tokens.getLast?.getD ⟨.eof, [], .first⟩

/-- The stream when the lexer gives the tokens in the list, up to the first one that is code.
Comments before it are collected. -/
def readOn (s : Stream) : List Token → Stream
  | [] => { s with unread := [] }
  | t :: rest =>
    match t.kind with
    | .comment =>
      { s with comments := ⟨t.pos, t.text, s.lastLine = some t.mark.line⟩ :: s.comments }.readOn
        rest
    | .hashBang => s.readOn rest
    | _ => { s with unread := rest, seen := some t }

/-- The stream after a look at the next token. -/
def look (s : Stream) : Stream :=
  match s.seen with
  | some _ => s
  | none => s.readOn s.unread

def peek (s : Stream) : Token := s.look.seen.getD s.eof

/-- The stream with `t` taken. An error is no code. -/
def record (s : Stream) (t : Token) : Stream :=
  match t.kind with
  | .error _ => s
  | _ => { s with tokens := ⟨t.pos, t.stop⟩ :: s.tokens, lastLine := some t.lastLine }

/-- The stream after the next token. The end token stays. -/
def advance (s : Stream) : Stream :=
  match s.look.seen with
  | none => { s.look with current := some s.eof }
  | some t => { s.look.record t with current := some t, seen := none }

/-- The place of a fault at an offset: line and column are known at the next token and at the one
read last. -/
def placeAt (s : Stream) (pos : Nat) : Place :=
  if s.peek.pos = pos then .mark s.peek.mark
  else match s.current with
    | some t => if t.pos = pos then .mark t.mark else .offset pos
    | none => .offset pos

end Stream

abbrev Parser := StateT Stream (Except ParseError)

namespace Parser

/-! ## Reading tokens -/

def peekKind : Parser TokenKind := fun s => .ok (s.peek.kind, s.look)

def peekPos : Parser Nat := fun s => .ok (s.peek.pos, s.look)

def take : Parser Token := fun s => .ok (s.peek, s.advance)

def failAt {α : Type} (pos : Nat) (fault : SyntaxFault) : Parser α := fun s =>
  .error ⟨s.placeAt pos, fault⟩

def unexpected {α : Type} (want : Expectation) : Parser α := fun s =>
  match s.peek.kind with
  | .error cause => failAt s.peek.pos (.lexical cause) s
  | _ => failAt s.peek.pos (.expected want s.peek) s

def accept (kind : TokenKind) : Parser Bool := fun s =>
  if s.peek.kind = kind then .ok (true, s.advance) else .ok (false, s.look)

def require (kind : TokenKind) (want : Expectation) : Parser Token := fun s =>
  if s.peek.kind = kind then .ok (s.peek, s.advance) else unexpected want s

def expect (kind : TokenKind) : Parser Token := require kind (.token kind)

def expectClose (kind : TokenKind) (opener : String) (opened : Nat) : Parser Nat := do
  return (← require kind (.closing kind opener opened)).pos

def ident : Parser Ident := do
  let t ← expect .name
  return ⟨t.pos, t.text⟩

def stringLiteral : Parser Expr := do
  let t ← take
  match t.kind with
  | .longString => return .string t.pos t.text (Literal.unbracket t.text)
  | _ =>
    match Literal.unquote t.text with
    | .ok value => return .string t.pos t.text value
    | .error cause => failAt t.pos (.escape cause)

/-! ## Names and parameters

These lists contain no nested constructs; the fuel bounds their length. -/

/-- The names after a separator, as long as the separator comes next. -/
def moreIdents (sep : TokenKind) : Nat → Parser (List Ident)
  | 0 => failAt 0 .exhausted
  | fuel + 1 => do
    if ← accept sep then
      let i ← ident
      return i :: (← moreIdents sep fuel)
    else return []

def localName : Parser LocalName := do
  let i ← ident
  if ← accept (.sign .less) then
    let word ← ident
    let close ← expect (.sign .greater)
    return ⟨i, some ⟨word, close.stop⟩⟩
  else return ⟨i, none⟩

def localNames : Nat → Parser (List LocalName)
  | 0 => failAt 0 .exhausted
  | fuel + 1 => do
    let n ← localName
    if ← accept (.sign .comma) then return n :: (← localNames fuel) else return [n]

/-- Parameters up to the closing parenthesis, and the offset of a trailing `...`. -/
def params : Nat → Parser (List Ident × Option Nat)
  | 0 => failAt 0 .exhausted
  | fuel + 1 => do
    match ← peekKind with
    | .sign .ellipsis =>
      let t ← take
      return ([], some t.pos)
    | _ =>
      let i ← ident
      if ← accept (.sign .comma) then
        let (others, vararg) ← params fuel
        return (i :: others, vararg)
      else return ([i], none)

def funcName (fuel : Nat) : Parser FuncName := do
  let base ← ident
  let fields ← moreIdents (.sign .dot) fuel
  if ← accept (.sign .colon) then
    let method ← ident
    return ⟨base, fields, some method⟩
  else return ⟨base, fields, none⟩

/-! ## The grammar -/

def endsBlock : TokenKind → Bool
  | .eof => true
  | .keyword .end => true
  | .keyword .else => true
  | .keyword .elseif => true
  | .keyword .until => true
  | _ => false

def assignable (e : Expr) : Parser Expr :=
  match e with
  | .name _ => return e
  | .field _ _ => return e
  | .element _ _ _ _ => return e
  | _ => failAt e.start .notAssignable

mutual

/-- A sequence of statements up to the token that ends it. -/
def block : Nat → Parser Block
  | 0 => failAt 0 .exhausted
  | fuel + 1 => do
    let pos ← peekPos
    return .mk pos (← statements fuel)

def statements : Nat → Parser (List Stmt)
  | 0 => failAt 0 .exhausted
  | fuel + 1 => do
    match ← peekKind with
    | .sign .semicolon =>
      let _ ← take
      statements fuel
    | .keyword .return =>
      let s ← returnStatement fuel
      let _ ← accept (.sign .semicolon)
      return [s]
    | kind =>
      if endsBlock kind then return []
      else
        let s ← statement fuel
        return s :: (← statements fuel)

def statement : Nat → Parser Stmt
  | 0 => failAt 0 .exhausted
  | fuel + 1 => do
    match ← peekKind with
    | .keyword .local => localStatement fuel
    | .keyword .function =>
      let t ← take
      let name ← funcName fuel
      return .function t.pos name (← funcBody fuel)
    | .keyword .if => ifStatement fuel
    | .keyword .while =>
      let t ← take
      let cond ← expr fuel
      let _ ← expect (.keyword .do)
      let body ← block fuel
      return .whileLoop t.pos cond body (← expectClose (.keyword .end) "while" t.pos)
    | .keyword .do =>
      let t ← take
      let body ← block fuel
      return .doBlock t.pos body (← expectClose (.keyword .end) "do" t.pos)
    | .keyword .for => forStatement fuel
    | .keyword .repeat =>
      let t ← take
      let body ← block fuel
      let untilPos ← expectClose (.keyword .until) "repeat" t.pos
      return .repeatLoop t.pos body untilPos (← expr fuel)
    | .keyword .break =>
      let t ← take
      return .brk t.pos
    | .keyword .goto =>
      let t ← take
      return .goto t.pos (← ident)
    | .sign .doubleColon =>
      let t ← take
      let name ← ident
      let close ← expect (.sign .doubleColon)
      return .label t.pos name close.stop
    | _ => exprStatement fuel

def localStatement : Nat → Parser Stmt
  | 0 => failAt 0 .exhausted
  | fuel + 1 => do
    let t ← take
    if ← accept (.keyword .function) then
      let name ← ident
      return .localFunction t.pos name (← funcBody fuel)
    else
      let names ← localNames fuel
      if ← accept (.sign .assign) then
        return .localAssign t.pos names (← exprList fuel)
      else return .localAssign t.pos names []

def ifStatement : Nat → Parser Stmt
  | 0 => failAt 0 .exhausted
  | fuel + 1 => do
    let t ← take
    let cond ← expr fuel
    let thenToken ← expect (.keyword .then)
    let body ← block fuel
    let arms ← elseIfs fuel
    match ← peekKind with
    | .keyword .else =>
      let e ← take
      let otherwise ← block fuel
      let endPos ← expectClose (.keyword .end) "if" t.pos
      return .ifThen t.pos cond thenToken.pos body arms (.present e.pos otherwise) endPos
    | _ =>
      let endPos ← expectClose (.keyword .end) "if" t.pos
      return .ifThen t.pos cond thenToken.pos body arms .absent endPos

def elseIfs : Nat → Parser (List ElseIf)
  | 0 => failAt 0 .exhausted
  | fuel + 1 => do
    match ← peekKind with
    | .keyword .elseif =>
      let t ← take
      let cond ← expr fuel
      let thenToken ← expect (.keyword .then)
      let body ← block fuel
      return .mk t.pos cond thenToken.pos body :: (← elseIfs fuel)
    | _ => return []

def forStatement : Nat → Parser Stmt
  | 0 => failAt 0 .exhausted
  | fuel + 1 => do
    let t ← take
    let first ← ident
    if ← accept (.sign .assign) then
      let start ← expr fuel
      let _ ← expect (.sign .comma)
      let limit ← expr fuel
      let step ← if ← accept (.sign .comma) then some <$> expr fuel else pure none
      let _ ← expect (.keyword .do)
      let body ← block fuel
      return .numericFor t.pos first start limit step body
        (← expectClose (.keyword .end) "for" t.pos)
    else
      let others ← moreIdents (.sign .comma) fuel
      let _ ← expect (.keyword .in)
      let exprs ← exprList fuel
      let _ ← expect (.keyword .do)
      let body ← block fuel
      return .genericFor t.pos (first :: others) exprs body
        (← expectClose (.keyword .end) "for" t.pos)

def returnStatement : Nat → Parser Stmt
  | 0 => failAt 0 .exhausted
  | fuel + 1 => do
    let t ← take
    let kind ← peekKind
    if endsBlock kind || kind = .sign .semicolon then return .ret t.pos []
    else return .ret t.pos (← exprList fuel)

def exprStatement : Nat → Parser Stmt
  | 0 => failAt 0 .exhausted
  | fuel + 1 => do
    let e ← suffixedExpr fuel
    let kind ← peekKind
    if kind = .sign .assign || kind = .sign .comma then
      let first ← assignable e
      let others ← moreTargets fuel
      let equal ← expect (.sign .assign)
      return .assign (first :: others) equal.pos (← exprList fuel)
    else match e with
      | .call callee method form args => return .call callee method form args
      | _ => failAt e.start .notStatement

def moreTargets : Nat → Parser (List Expr)
  | 0 => failAt 0 .exhausted
  | fuel + 1 => do
    if ← accept (.sign .comma) then
      let e ← suffixedExpr fuel
      let target ← assignable e
      return target :: (← moreTargets fuel)
    else return []

def funcBody : Nat → Parser FuncBody
  | 0 => failAt 0 .exhausted
  | fuel + 1 => do
    let lparen ← expect (.sign .leftParen)
    let (names, vararg) ←
      if (← peekKind) = .sign .rightParen then pure ([], none) else params fuel
    let rparen ← expect (.sign .rightParen)
    let body ← block fuel
    return .mk lparen.pos names vararg rparen.pos body
      (← expectClose (.keyword .end) "function" lparen.pos)

/-- Expressions separated by commas, at least one. -/
def exprList : Nat → Parser (List Expr)
  | 0 => failAt 0 .exhausted
  | fuel + 1 => do
    let e ← expr fuel
    if ← accept (.sign .comma) then return e :: (← exprList fuel) else return [e]

def expr : Nat → Parser Expr
  | 0 => failAt 0 .exhausted
  | fuel + 1 => subExpr fuel 0

/-- An expression whose binary operators bind more tightly than `limit`. -/
def subExpr : Nat → Nat → Parser Expr
  | 0, _ => failAt 0 .exhausted
  | fuel + 1, limit => do
    match UnaryOp.ofToken? (← peekKind) with
    | some op =>
      let t ← take
      let operand ← subExpr fuel UnaryOp.power
      binaryTail fuel limit (.unary op t.pos operand)
    | none =>
      let e ← simpleExpr fuel
      binaryTail fuel limit e

/-- The binary operators after `left` that bind more tightly than `limit`. -/
def binaryTail : Nat → Nat → Expr → Parser Expr
  | 0, _, _ => failAt 0 .exhausted
  | fuel + 1, limit, left => do
    match BinaryOp.ofToken? (← peekKind) with
    | none => return left
    | some op =>
      if op.leftPower ≤ limit then return left
      else
        let t ← take
        let right ← subExpr fuel op.rightPower
        binaryTail fuel limit (.binary op t.pos left right)

/-- An expression without binary or unary operators at its top. -/
def simpleExpr : Nat → Parser Expr
  | 0 => failAt 0 .exhausted
  | fuel + 1 => do
    match ← peekKind with
    | .number =>
      let t ← take
      return .number t.pos t.text
    | .string => stringLiteral
    | .longString => stringLiteral
    | .keyword .nil =>
      let t ← take
      return .nil t.pos
    | .keyword .true =>
      let t ← take
      return .bool t.pos true
    | .keyword .false =>
      let t ← take
      return .bool t.pos false
    | .sign .ellipsis =>
      let t ← take
      return .vararg t.pos
    | .sign .leftBrace => table fuel
    | .keyword .function =>
      let t ← take
      return .function t.pos (← funcBody fuel)
    | _ => suffixedExpr fuel

def primaryExpr : Nat → Parser Expr
  | 0 => failAt 0 .exhausted
  | fuel + 1 => do
    match ← peekKind with
    | .name => return .name (← ident)
    | .sign .leftParen =>
      let t ← take
      let inner ← expr fuel
      return .paren t.pos inner (← expectClose (.sign .rightParen) "(" t.pos)
    | _ => unexpected .expression

def suffixedExpr : Nat → Parser Expr
  | 0 => failAt 0 .exhausted
  | fuel + 1 => do
    let e ← primaryExpr fuel
    suffixes fuel e

def suffixes : Nat → Expr → Parser Expr
  | 0, _ => failAt 0 .exhausted
  | fuel + 1, e => do
    match ← peekKind with
    | .sign .dot =>
      let _ ← take
      let name ← ident
      suffixes fuel (.field e name)
    | .sign .leftBracket =>
      let t ← take
      let key ← expr fuel
      let rbrack ← expectClose (.sign .rightBracket) "[" t.pos
      suffixes fuel (.element e t.pos key rbrack)
    | .sign .colon =>
      let _ ← take
      let method ← ident
      let (form, args) ← callArgs fuel
      suffixes fuel (.call e (some method) form args)
    | .sign .leftParen | .string | .longString | .sign .leftBrace =>
      let (form, args) ← callArgs fuel
      suffixes fuel (.call e none form args)
    | _ => return e

def callArgs : Nat → Parser (CallForm × List Expr)
  | 0 => failAt 0 .exhausted
  | fuel + 1 => do
    match ← peekKind with
    | .string | .longString => return (.literal, [← stringLiteral])
    | .sign .leftBrace => return (.literal, [← table fuel])
    | .sign .leftParen =>
      let t ← take
      let args ← if (← peekKind) = .sign .rightParen then pure [] else exprList fuel
      let rparen ← expectClose (.sign .rightParen) "(" t.pos
      return (.parens t.pos rparen, args)
    | _ => unexpected .arguments

def table : Nat → Parser Expr
  | 0 => failAt 0 .exhausted
  | fuel + 1 => do
    let t ← expect (.sign .leftBrace)
    let fields ← tableFields fuel
    return .table t.pos fields (← expectClose (.sign .rightBrace) "\x7b" t.pos)

def tableFields : Nat → Parser (List TableField)
  | 0 => failAt 0 .exhausted
  | fuel + 1 => do
    if (← peekKind) = .sign .rightBrace then return []
    else
      let f ← tableField fuel
      let kind ← peekKind
      if kind = .sign .comma || kind = .sign .semicolon then
        let _ ← take
        return f :: (← tableFields fuel)
      else return [f]

def tableField : Nat → Parser TableField
  | 0 => failAt 0 .exhausted
  | fuel + 1 => do
    match ← peekKind with
    | .sign .leftBracket =>
      let t ← take
      let key ← expr fuel
      let _ ← expectClose (.sign .rightBracket) "[" t.pos
      let _ ← expect (.sign .assign)
      return .keyed t.pos key (← expr fuel)
    | _ =>
      let e ← expr fuel
      match e with
      | .name i =>
        if ← accept (.sign .assign) then return .named i (← expr fuel)
        else return .positional e
      | _ => return .positional e

end

/-! ## Chunks -/

/-- A whole source: a block up to the end token. -/
def chunkBlock (fuel : Nat) : Parser Block := do
  let b ← block fuel
  if (← peekKind) = .eof then return b else unexpected .endOfSource

/-- Fuel that suffices for a number of tokens. -/
def fuelFor (count : Nat) : Nat := 16 * (count + 2)

def parse (source : Bytes) : Except ParseError Chunk := do
  let tokens := Lexer.tokens source
  let (block, s) ← chunkBlock (fuelFor tokens.length) (.ofTokens tokens)
  let s := s.look
  return {
    block := block
    comments := s.comments.reverse
    tokens := s.tokens.reverse
    size := s.peek.pos }

end Parser

end LuaLint
