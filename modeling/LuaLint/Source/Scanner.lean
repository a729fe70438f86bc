import LuaLint.Text.Blank
import LuaLint.Source.Location

/-!
# Scanner

A scanner walks over the glyphs of a source. It remembers where the current token began, and what
has been taken into it so far. Offsets and columns count bytes; a line feed begins a new line.
-/

namespace LuaLint

/-- A place in a source together with the beginning of the current token. -/
structure Scanner where
  /-- Where the current token began. -/
  start : Mark
  here : Mark
  taken : List Glyph
  rest : List Glyph
  /-- The code of the glyph scanned last, 0 before the first one. -/
  last : Nat
  deriving Repr

def Mark.after (mark : Mark) (glyph : Glyph) : Mark :=
  if glyph.code = 10 then ⟨mark.pos + glyph.size, mark.line + 1, 1⟩
  else ⟨mark.pos + glyph.size, mark.line, mark.col + glyph.size⟩

namespace Scanner

/-! ## State -/

def ofSource (source : Bytes) : Scanner :=
  { start := .first, here := .first, taken := [], rest := Glyph.decode source, last := 0 }

def text (s : Scanner) : Bytes := s.taken.reverse.flatMap Glyph.bytes

def atEnd (s : Scanner) : Bool := s.rest.isEmpty

def peek? (s : Scanner) : Option Nat := s.rest.head?.map Glyph.code

/-- The code of the glyph that begins `n` bytes after the next one. -/
def peekAt? (s : Scanner) (n : Nat) : Option Nat :=
  ((Glyph.decode ((s.rest.flatMap Glyph.bytes).drop n)).head?).map Glyph.code

/-! ## Taking glyphs -/

/-- Takes the next glyph into the current token. At the end nothing changes. -/
def advance (s : Scanner) : Scanner :=
  match s.rest with
  | [] => s
  | g :: rest =>
    { s with here := s.here.after g, taken := g :: s.taken, rest := rest, last := g.code }

/-- Takes the next `n` glyphs into the current token. -/
def advanceBy : Nat → Scanner → Scanner
  | 0, s => s
  | n + 1, s => advanceBy n s.advance

def acceptIf (p : Nat → Bool) (s : Scanner) : Option Scanner :=
  match s.peek? with
  | some code => if p code then some s.advance else none
  | none => none

def acceptChar (c : Char) (s : Scanner) : Option Scanner := s.acceptIf (· == c.toNat)

def countWhile (p : Nat → Bool) (s : Scanner) : Nat :=
  (s.rest.takeWhile fun g => p g.code).length

def acceptWhile (p : Nat → Bool) (s : Scanner) : Scanner := s.advanceBy (s.countWhile p)

/-- Takes the glyphs of `literal` if they come next, and nothing otherwise. -/
def acceptText (literal : Bytes) (s : Scanner) : Option Scanner :=
  let glyphs := Glyph.decode literal
  if glyphs.isPrefixOf s.rest then some (s.advanceBy glyphs.length) else none

def ignore (s : Scanner) : Scanner := { s with start := s.here, taken := [] }

end Scanner

/-! ## Character classes of Lua -/

namespace Ascii

def isDigit (code : Nat) : Bool := 48 ≤ code && code ≤ 57

def isHexDigit (code : Nat) : Bool :=
  isDigit code || (97 ≤ code && code ≤ 102) || (65 ≤ code && code ≤ 70)

def isNameStart (code : Nat) : Bool :=
  code == 95 || (97 ≤ code && code ≤ 122) || (65 ≤ code && code ≤ 90)

def isName (code : Nat) : Bool := isNameStart code || isDigit code

def hexValue (code : Nat) : Nat :=
  if isDigit code then code - 48 else if 97 ≤ code then code - 87 else code - 55

end Ascii

end LuaLint
