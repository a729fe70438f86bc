import LuaLint.Source.Scanner
import LuaLint.Token.Basic

/-!
# Lexer

The lexer cuts a source into tokens. It never fails: a piece of source that is no token becomes an
error token, and reading goes on right after it.

The extent of a token with an inner structure (strings, long brackets) is found on the glyphs ahead
before anything is taken, so that each search is a recursion on those glyphs.
-/

namespace LuaLint.Lexer

/-! ## Emitting -/

/-- A token of the given kind from what has been taken, and the scanner ready for the next one. -/
def emit (kind : TokenKind) (s : Scanner) : Token × Scanner :=
  (⟨kind, s.text, s.start⟩, s.ignore)

/-- An operator or delimiter from what has been taken. -/
def sign (s : Sign) (scanner : Scanner) : Token × Scanner := emit (.sign s) scanner

def fail (cause : LexicalError) (s : Scanner) : Token × Scanner := emit (.error cause) s

/-- The first of several longer signs that can be completed here, and otherwise the short one. -/
def longest (short : Sign) : List (Char × Sign) → Scanner → Token × Scanner
  | [], s => sign short s
  | (c, long) :: others, s =>
    match s.acceptChar c with
    | none => longest short others s
    | some s' => sign long s'

/-! ## Long brackets -/

/-- The level of the long bracket that opens here, after its first `[` has been taken. -/
def longLevel? (glyphs : List Glyph) : Option Nat :=
  let level := (glyphs.takeWhile fun g => g.code == 61).length
  match glyphs.drop level with
  | g :: _ => if g.code = 91 then some level else none
  | [] => none

def longClose (level : Nat) : List Glyph :=
  [.scalar ']'] ++ List.replicate level (.scalar '=') ++ [.scalar ']']

/-- The number of glyphs up to the end of `closing`, and whether it occurs at all. Without it all
glyphs count. -/
def longEnd (closing : List Glyph) : List Glyph → Nat × Bool
  | [] => (0, false)
  | g :: rest =>
    if closing.isPrefixOf (g :: rest) then (closing.length, true)
    else ((longEnd closing rest).1 + 1, (longEnd closing rest).2)

def longBody (kind : TokenKind) (unfinished : LexicalError) (level : Nat) (s : Scanner) :
    Token × Scanner :=
  let (count, closed) := longEnd (longClose level) s.rest
  let s' := s.advanceBy count
  if closed then emit kind s' else fail unfinished s'

/-- A comment, after its two dashes have been taken. -/
def comment (s : Scanner) : Token × Scanner :=
  let line (s : Scanner) := emit .comment (s.acceptWhile (· != 10))
  match s.acceptChar '[' with
  | none => line s
  | some s' =>
    match longLevel? s'.rest with
    | some level => longBody .comment .unfinishedLongComment level (s'.advanceBy (level + 1))
    | none => line s'

/-! ## Quoted strings -/

/-- Where the reading of a quoted string stands. -/
inductive StringMode where
  | plain
  | escaped
  /-- Within the white space that `\z` skips. -/
  | skipping
  deriving DecidableEq, Repr

/-- The number of glyphs up to and including the end of a quoted string, and whether that is the
closing quote. A line feed that is neither escaped nor skipped ends the string as well. -/
def stringEnd (quote : Nat) : StringMode → List Glyph → Nat × Bool
  | _, [] => (0, false)
  | .escaped, g :: rest =>
    let (count, closed) := stringEnd quote (if g.code = 122 then .skipping else .plain) rest
    (count + 1, closed)
  | mode, g :: rest =>
    if mode = .skipping && Blank.isLuaSpace g.code then
      let (count, closed) := stringEnd quote .skipping rest
      (count + 1, closed)
    else if g.code = quote then (1, true)
    else if g.code = 10 then (1, false)
    else
      let (count, closed) := stringEnd quote (if g.code = 92 then .escaped else .plain) rest
      (count + 1, closed)

/-- A quoted string, after its opening quote has been taken. -/
def string (quote : Nat) (s : Scanner) : Token × Scanner :=
  let (count, closed) := stringEnd quote .plain s.rest
  let s' := s.advanceBy count
  if closed then emit .string s' else fail .unfinishedString s'

/-! ## Numerals -/

def malformed (s : Scanner) : Token × Scanner := fail (.malformedNumber s.text) s

/-- The end of a numeral: nothing that could continue a name may follow. -/
def numberEnd (s : Scanner) : Token × Scanner :=
  let s' := s.acceptWhile Ascii.isName
  if s.countWhile Ascii.isName = 0 then emit .number s else malformed s'

def exponent (markers : Nat → Bool) (s : Scanner) : Token × Scanner :=
  match s.acceptIf markers with
  | none => numberEnd s
  | some s₁ =>
    let s₂ := (s₁.acceptIf fun c => c == 43 || c == 45).getD s₁
    if s₂.countWhile Ascii.isDigit = 0 then malformed s₂
    else numberEnd (s₂.acceptWhile Ascii.isDigit)

def decimalMarker (code : Nat) : Bool := code == 101 || code == 69

/-- The exponent marker of a hexadecimal numeral. -/
def hexMarker (code : Nat) : Bool := code == 112 || code == 80

/-- A hexadecimal numeral, after the `whole` digits before its point have been taken. -/
def hexTail (whole : Nat) (s : Scanner) : Token × Scanner :=
  match s.acceptChar '.' with
  | none => if whole = 0 then malformed s else exponent hexMarker s
  | some s₁ =>
    if whole + s₁.countWhile Ascii.isHexDigit = 0 then malformed s₁
    else exponent hexMarker (s₁.acceptWhile Ascii.isHexDigit)

def hexNumber (s : Scanner) : Token × Scanner :=
  hexTail (s.countWhile Ascii.isHexDigit) (s.acceptWhile Ascii.isHexDigit)

/-- A numeral, after its decimal point has been taken. -/
def fraction (s : Scanner) : Token × Scanner :=
  exponent decimalMarker (s.acceptWhile Ascii.isDigit)

def decimal (s : Scanner) : Token × Scanner :=
  let s₁ := s.acceptWhile Ascii.isDigit
  match s₁.acceptChar '.' with
  | none => exponent decimalMarker s₁
  | some s₂ => fraction s₂

/-- A numeral, after its first digit has been taken. -/
def number (s : Scanner) : Token × Scanner :=
  let hex := if s.last = 48 then s.acceptIf (fun c => c == 120 || c == 88) else none
  match hex with
  | none => decimal s
  | some s' => hexNumber s'

/-! ## Tokens -/

/-- A token that begins with `.`, after that has been taken. -/
def dots (s : Scanner) : Token × Scanner :=
  match s.acceptChar '.' with
  | none =>
    match s.peek? with
    | some code => if Ascii.isDigit code then fraction s else sign .dot s
    | none => sign .dot s
  | some s₁ => longest .concat [('.', .ellipsis)] s₁

/-- A token that begins with `[`, after that has been taken. -/
def bracket (s : Scanner) : Token × Scanner :=
  match longLevel? s.rest with
  | some level => longBody .longString .unfinishedLongString level (s.advanceBy (level + 1))
  | none => sign .leftBracket s

/-- A word, a numeral, or an unexpected character, after its first glyph has been taken. -/
def word (code : Nat) (s : Scanner) : Token × Scanner :=
  if Ascii.isDigit code then number s
  else if Ascii.isNameStart code then
    let s' := s.acceptWhile Ascii.isName
    emit (.ofName s'.text) s'
  else fail (.unexpectedCharacter code) s

/-- The token that begins with the glyph of the given code, after that has been taken. -/
def dispatch (code : Nat) (s : Scanner) : Token × Scanner :=
  match Char.ofNat code with
  | '-' =>
    match s.acceptChar '-' with
    | none => sign .minus s
    | some s' => comment s'
  | '+' => sign .plus s
  | '*' => sign .star s
  | '/' => longest .slash [('/', .doubleSlash)] s
  | '%' => sign .percent s
  | '^' => sign .caret s
  | '#' => sign .hash s
  | '&' => sign .ampersand s
  | '|' => sign .pipe s
  | '~' => longest .tilde [('=', .notEqual)] s
  | '=' => longest .assign [('=', .equal)] s
  | '<' => longest .less [('=', .lessEqual), ('<', .shiftLeft)] s
  | '>' => longest .greater [('=', .greaterEqual), ('>', .shiftRight)] s
  | '(' => sign .leftParen s
  | ')' => sign .rightParen s
  | '{' => sign .leftBrace s
  | '}' => sign .rightBrace s
  | ']' => sign .rightBracket s
  | '[' => bracket s
  | ';' => sign .semicolon s
  | ',' => sign .comma s
  | ':' => longest .colon [(':', .doubleColon)] s
  | '.' => dots s
  | '"' => string 34 s
  | '\'' => string 39 s
  | _ => word code s

/-- The next token and the scanner after it. White space in front is skipped; at the end of the
source the end token comes again and again. -/
def next (s : Scanner) : Token × Scanner :=
  let s₀ := (s.acceptWhile Blank.isLuaSpace).ignore
  match s₀.peek? with
  | none => emit .eof s₀
  | some code => dispatch code s₀.advance

/-- The first token of a source. An interpreter line is a token only here. -/
def firstToken (s : Scanner) : Token × Scanner :=
  match s.acceptText "#!" with
  | some s' => emit .hashBang (s'.acceptWhile (· != 10))
  | none => next s

/-- At most `fuel` tokens beginning with `current`, up to and including the end token, and the
scanner after them. -/
def collect : Nat → Token × Scanner → List Token × Scanner
  | 0, (t, s) => ([t], s)
  | fuel + 1, (t, s) =>
    if t.kind = .eof then ([t], s)
    else
      let (others, rest) := collect fuel (next s)
      (t :: others, rest)

/-- All tokens of a source up to the end token, and the scanner after them. Every other token takes
at least one glyph, so there are at most as many as bytes. -/
def run (source : Bytes) : List Token × Scanner :=
  collect source.length (firstToken (.ofSource source))

def tokens (source : Bytes) : List Token := (run source).1

end LuaLint.Lexer
