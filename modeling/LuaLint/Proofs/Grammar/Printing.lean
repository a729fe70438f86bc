import LuaLint.Proofs.Grammar.Reading
import LuaLint.Proofs.Syntax.Relocation

/-!
# Printing syntax trees

A tree is printed as the list of its tokens, in one of the ways that the grammar allows: a semicolon
follows every statement, a comma separates the entries of a table. The text of a tree is the texts
of those tokens with blanks between them. Offsets play no part in it.
-/

namespace LuaLint

/-! ## Tokens without places -/

/-- A token without its place. -/
structure Lexed where
  kind : TokenKind
  text : Bytes
  deriving DecidableEq, Repr

def Token.lexed (t : Token) : Lexed := ⟨t.kind, t.text⟩

def TokenKind.lexed (kind : TokenKind) : Lexed := ⟨kind, kind.label⟩

def Keyword.lexed (word : Keyword) : Lexed := TokenKind.lexed (.keyword word)

def Sign.lexed (s : Sign) : Lexed := TokenKind.lexed (.sign s)

def Ident.lexed (i : Ident) : Lexed := ⟨.name, i.name⟩

/-- The kind of a string literal: one that begins with a bracket is a long string. -/
def stringKind (raw : Bytes) : TokenKind :=
  if raw.head? = some 91 then .longString else .string

/-! ## Names -/

def Ident.lexemesAfter (sep : Sign) : List Ident → List Lexed
  | [] => []
  | i :: is => sep.lexed :: i.lexed :: lexemesAfter sep is

def Ident.lexemesOf : List Ident → List Lexed
  | [] => []
  | i :: is => i.lexed :: lexemesAfter .comma is

def LocalName.lexemes (n : LocalName) : List Lexed :=
  match n.attrib with
  | none => [n.ident.lexed]
  | some a => [n.ident.lexed, Sign.less.lexed, ⟨.name, a.name⟩, Sign.greater.lexed]

def LocalName.lexemesOf : List LocalName → List Lexed
  | [] => []
  | [n] => n.lexemes
  | n :: ns => n.lexemes ++ [Sign.comma.lexed] ++ lexemesOf ns

def Ident.paramLexemes : List Ident → Option Nat → List Lexed
  | [], none => []
  | [], some _ => [Sign.ellipsis.lexed]
  | [i], none => [i.lexed]
  | i :: is, vararg => i.lexed :: Sign.comma.lexed :: paramLexemes is vararg

def FuncName.lexemes (n : FuncName) : List Lexed :=
  n.base.lexed :: Ident.lexemesAfter .dot n.fields ++ Ident.lexemesAfter .colon n.method.toList

/-! ## Phrases -/

/-- The arguments of a call, with parentheses around them if they are written so. -/
def CallForm.enclose (inner : List Lexed) : CallForm → List Lexed
  | .parens _ _ => Sign.leftParen.lexed :: inner ++ [Sign.rightParen.lexed]
  | .literal => inner

mutual

def Expr.lexemes : Expr → List Lexed
  | .nil _ => [Keyword.nil.lexed]
  | .bool _ value => [if value then Keyword.true.lexed else Keyword.false.lexed]
  | .number _ raw => [⟨.number, raw⟩]
  | .string _ raw _ => [⟨stringKind raw, raw⟩]
  | .vararg _ => [Sign.ellipsis.lexed]
  | .name i => [i.lexed]
  | .function _ body => Keyword.function.lexed :: body.lexemes
  | .table _ fields _ =>
    Sign.leftBrace.lexed :: TableField.lexemesOf fields ++ [Sign.rightBrace.lexed]
  | .binary op _ left right => left.lexemes ++ op.token.lexed :: right.lexemes
  | .unary op _ operand => op.token.lexed :: operand.lexemes
  | .paren _ inner _ => Sign.leftParen.lexed :: inner.lexemes ++ [Sign.rightParen.lexed]
  | .field object i => object.lexemes ++ [Sign.dot.lexed, i.lexed]
  | .element object _ key _ =>
    object.lexemes ++ Sign.leftBracket.lexed :: key.lexemes ++ [Sign.rightBracket.lexed]
  | .call callee method form args =>
    callee.lexemes ++ Ident.lexemesAfter .colon method.toList ++ form.enclose (Expr.lexemesOf args)

def Expr.lexemesOf : List Expr → List Lexed
  | [] => []
  | e :: es => e.lexemes ++ Expr.lexemesAfter es

def Expr.lexemesAfter : List Expr → List Lexed
  | [] => []
  | e :: es => Sign.comma.lexed :: e.lexemes ++ Expr.lexemesAfter es

def Expr.valueLexemes : List Expr → List Lexed
  | [] => []
  | e :: es => Sign.assign.lexed :: e.lexemes ++ Expr.lexemesAfter es

def TableField.lexemes : TableField → List Lexed
  | .positional value => value.lexemes
  | .named i value => i.lexed :: Sign.assign.lexed :: value.lexemes
  | .keyed _ key value =>
    Sign.leftBracket.lexed :: key.lexemes ++
      Sign.rightBracket.lexed :: Sign.assign.lexed :: value.lexemes

def TableField.lexemesOf : List TableField → List Lexed
  | [] => []
  | f :: fs => f.lexemes ++ TableField.lexemesAfter fs

def TableField.lexemesAfter : List TableField → List Lexed
  | [] => []
  | f :: fs => Sign.comma.lexed :: f.lexemes ++ TableField.lexemesAfter fs

def FuncBody.lexemes : FuncBody → List Lexed
  | .mk _ params vararg _ body _ =>
    Sign.leftParen.lexed :: Ident.paramLexemes params vararg ++
      Sign.rightParen.lexed :: body.lexemes ++ [Keyword.end.lexed]

def Stmt.lexemes : Stmt → List Lexed
  | .localAssign _ names values =>
    Keyword.local.lexed :: LocalName.lexemesOf names ++ Expr.valueLexemes values
  | .assign targets _ values =>
    Expr.lexemesOf targets ++ Sign.assign.lexed :: Expr.lexemesOf values
  | .call callee method form args =>
    callee.lexemes ++ Ident.lexemesAfter .colon method.toList ++ form.enclose (Expr.lexemesOf args)
  | .doBlock _ body _ => Keyword.do.lexed :: body.lexemes ++ [Keyword.end.lexed]
  | .whileLoop _ cond body _ =>
    Keyword.while.lexed :: cond.lexemes ++ Keyword.do.lexed :: body.lexemes ++ [Keyword.end.lexed]
  | .repeatLoop _ body _ cond =>
    Keyword.repeat.lexed :: body.lexemes ++ Keyword.until.lexed :: cond.lexemes
  | .ifThen _ cond _ body arms otherwise _ =>
    Keyword.if.lexed :: cond.lexemes ++ Keyword.then.lexed :: body.lexemes ++
      ElseIf.lexemesOf arms ++ otherwise.lexemes ++ [Keyword.end.lexed]
  | .numericFor _ var start limit step body _ =>
    Keyword.for.lexed :: var.lexed :: Sign.assign.lexed :: start.lexemes ++
      Sign.comma.lexed :: limit.lexemes ++ Expr.stepLexemes step ++
      Keyword.do.lexed :: body.lexemes ++ [Keyword.end.lexed]
  | .genericFor _ names exprs body _ =>
    Keyword.for.lexed :: Ident.lexemesOf names ++
      Keyword.in.lexed :: Expr.lexemesOf exprs ++
      Keyword.do.lexed :: body.lexemes ++ [Keyword.end.lexed]
  | .function _ name body => Keyword.function.lexed :: name.lexemes ++ body.lexemes
  | .localFunction _ name body =>
    Keyword.local.lexed :: Keyword.function.lexed :: name.lexed :: body.lexemes
  | .ret _ values => Keyword.return.lexed :: Expr.lexemesOf values
  | .brk _ => [Keyword.break.lexed]
  | .goto _ target => [Keyword.goto.lexed, target.lexed]
  | .label _ name _ => [Sign.doubleColon.lexed, name.lexed, Sign.doubleColon.lexed]

def Expr.stepLexemes : Option Expr → List Lexed
  | none => []
  | some e => Sign.comma.lexed :: e.lexemes

def Stmt.lexemesOf : List Stmt → List Lexed
  | [] => []
  | s :: ss => s.lexemes ++ Sign.semicolon.lexed :: Stmt.lexemesOf ss

def ElseIf.lexemes : ElseIf → List Lexed
  | .mk _ cond _ body =>
    Keyword.elseif.lexed :: cond.lexemes ++ Keyword.then.lexed :: body.lexemes

def ElseIf.lexemesOf : List ElseIf → List Lexed
  | [] => []
  | arm :: arms => arm.lexemes ++ ElseIf.lexemesOf arms

def ElsePart.lexemes : ElsePart → List Lexed
  | .absent => []
  | .present _ body => Keyword.else.lexed :: body.lexemes

def Block.lexemes : Block → List Lexed
  | .mk _ stmts => Stmt.lexemesOf stmts

end

end LuaLint
