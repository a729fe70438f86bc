import LuaLint.Text.Quoted
import LuaLint.Source.Span
import LuaLint.Source.Location

/-!
# Tokens

The lexical elements of Lua source: names, literals, reserved words, operators and delimiters, and
next to them comments, the interpreter line and lexical errors.
-/

namespace LuaLint

/-! ## Reserved words and signs -/

/-- A reserved word. -/
inductive Keyword where
  | and | break | do | else | elseif | end | false | for | function | goto | if | in | local
  | nil | not | or | repeat | return | then | true | until | while
  deriving DecidableEq, Repr

namespace Keyword

def spelling : Keyword → String
  | .and => "and" | .break => "break" | .do => "do" | .else => "else" | .elseif => "elseif"
  | .end => "end" | .false => "false" | .for => "for" | .function => "function"
  | .goto => "goto" | .if => "if" | .in => "in" | .local => "local" | .nil => "nil"
  | .not => "not" | .or => "or" | .repeat => "repeat" | .return => "return"
  | .then => "then" | .true => "true" | .until => "until" | .while => "while"

def all : List Keyword :=
  [.and, .break, .do, .else, .elseif, .end, .false, .for, .function, .goto, .if, .in, .local,
    .nil, .not, .or, .repeat, .return, .then, .true, .until, .while]

/-- The reserved word spelled by `name`. -/
def ofName? (name : Bytes) : Option Keyword :=
  all.find? fun keyword => Bytes.ofString keyword.spelling == name

end Keyword

/-- An operator or a delimiter. -/
inductive Sign where
  | plus | minus | star | slash | doubleSlash | percent | caret | hash | ampersand | tilde | pipe
  | shiftLeft | shiftRight | concat | ellipsis | equal | notEqual | lessEqual | greaterEqual
  | less | greater | assign | leftParen | rightParen | leftBrace | rightBrace | leftBracket
  | rightBracket | doubleColon | semicolon | colon | comma | dot
  deriving DecidableEq, Repr

def Sign.spelling : Sign → String
  | .plus => "+" | .minus => "-" | .star => "*" | .slash => "/" | .doubleSlash => "//"
  | .percent => "%" | .caret => "^" | .hash => "#" | .ampersand => "&" | .tilde => "~"
  | .pipe => "|" | .shiftLeft => "<<" | .shiftRight => ">>" | .concat => ".."
  | .ellipsis => "..." | .equal => "==" | .notEqual => "~=" | .lessEqual => "<="
  | .greaterEqual => ">=" | .less => "<" | .greater => ">" | .assign => "="
  | .leftParen => "(" | .rightParen => ")" | .leftBrace => "\x7b" | .rightBrace => "\x7d"
  | .leftBracket => "[" | .rightBracket => "]" | .doubleColon => "::" | .semicolon => ";"
  | .colon => ":" | .comma => "," | .dot => "."

/-! ## Lexical errors -/

/-- Why a piece of source is no token. -/
inductive LexicalError where
  /-- A character that begins no token, by its code. -/
  | unexpectedCharacter (code : Nat)
  | unfinishedLongComment
  | unfinishedLongString
  /-- A quoted string that ends with the line or the source. -/
  | unfinishedString
  /-- A numeral with a missing or superfluous part. -/
  | malformedNumber (text : Bytes)
  deriving DecidableEq, Repr

def LexicalError.message : LexicalError → Bytes
  | .unexpectedCharacter code => "unexpected character " ++ Quoted.character code
  | .unfinishedLongComment => "unfinished long comment"
  | .unfinishedLongString => "unfinished long string"
  | .unfinishedString => "unfinished string"
  | .malformedNumber text => "malformed number near " ++ Quoted.text text

/-! ## Tokens -/

inductive TokenKind where
  | error (cause : LexicalError)
  | eof
  /-- The interpreter line at the very beginning of a source. -/
  | hashBang
  | comment
  | name
  | number
  | string
  | longString
  | keyword (word : Keyword)
  | sign (s : Sign)
  deriving DecidableEq, Repr

namespace TokenKind

def label : TokenKind → String
  | .error _ => "error"
  | .eof => "EOF"
  | .hashBang => "#!"
  | .comment => "--"
  | .name => "name"
  | .number => "number"
  | .string => "string"
  | .longString => "long-string"
  | .keyword word => word.spelling
  | .sign s => s.spelling

def isKeyword : TokenKind → Bool
  | .keyword _ => true
  | _ => false

/-- Whether tokens of this kind are part of the program: neither comments nor the interpreter
line. -/
def isCode : TokenKind → Bool
  | .comment => false
  | .hashBang => false
  | _ => true

/-- The kind of the word `name`: a reserved word, or a name. -/
def ofName (name : Bytes) : TokenKind :=
  match Keyword.ofName? name with
  | some word => .keyword word
  | none => .name

end TokenKind

structure Token where
  kind : TokenKind
  lexeme : Bytes
  mark : Mark
  deriving DecidableEq, Repr

namespace Token

def pos (t : Token) : Nat := t.mark.pos

/-- What a token tells its reader: its lexeme, or the message of a lexical error. -/
def text (t : Token) : Bytes :=
  match t.kind with
  | .error cause => cause.message
  | _ => t.lexeme

def stop (t : Token) : Nat := t.pos + t.text.length

def extent (t : Token) : Span := ⟨t.pos, t.pos + t.lexeme.length⟩

def lastLine (t : Token) : Nat := t.mark.line + t.text.newlines

/-- A token for display. Names and literals show their text. -/
def display (t : Token) : Bytes :=
  match t.kind with
  | .name | .number | .string | .longString =>
    t.kind.label ++ " " ++ Quoted.text t.text
  | _ => t.kind.label

end Token

end LuaLint
