import LuaLint.Text.Bytes

/-!
# Glyphs

A byte string is read as a sequence of glyphs: a Unicode scalar value where the bytes are valid
UTF-8, and a stray byte where they are not. Reading loses nothing: the bytes of the glyphs of a byte
string are that byte string.
-/

namespace LuaLint

inductive Glyph where
  /-- A Unicode scalar value encoded by one to four bytes. -/
  | scalar (c : Char)
  /-- A byte that is not part of a valid UTF-8 sequence. -/
  | stray (b : UInt8)
  deriving DecidableEq, Repr

namespace Glyph

/-- The code of a glyph: the scalar value, or the value of the stray byte. -/
def code : Glyph → Nat
  | .scalar c => c.toNat
  | .stray b => b.toNat

def bytes : Glyph → Bytes
  | .scalar c => Bytes.ofChar c
  | .stray b => [b]

def size (g : Glyph) : Nat := g.bytes.length

/-- The character shown for a glyph: a stray byte becomes U+FFFD. -/
def char : Glyph → Char
  | .scalar c => c
  | .stray _ => '�'

def isStray : Glyph → Bool
  | .scalar _ => false
  | .stray _ => true

/-! ## Decoding -/

def isTail (b : UInt8) : Bool := 0x80 ≤ b && b ≤ 0xBF

def two? (a b : UInt8) : Option Char :=
  if 0xC2 ≤ a && a ≤ 0xDF && isTail b then
    some (Char.ofNat ((a.toNat - 0xC0) * 64 + (b.toNat - 0x80)))
  else none

/-- The scalar value of a three-byte sequence. Overlong forms and surrogates are excluded by the
range of the second byte. -/
def three? (a b c : UInt8) : Option Char :=
  let second :=
    if a = 0xE0 then 0xA0 ≤ b && b ≤ 0xBF
    else if a = 0xED then 0x80 ≤ b && b ≤ 0x9F
    else 0xE1 ≤ a && a ≤ 0xEF && isTail b
  if second && isTail c then
    some (Char.ofNat ((a.toNat - 0xE0) * 4096 + (b.toNat - 0x80) * 64 + (c.toNat - 0x80)))
  else none

def four? (a b c d : UInt8) : Option Char :=
  let second :=
    if a = 0xF0 then 0x90 ≤ b && b ≤ 0xBF
    else if a = 0xF4 then 0x80 ≤ b && b ≤ 0x8F
    else 0xF1 ≤ a && a ≤ 0xF3 && isTail b
  if second && isTail c && isTail d then
    some (Char.ofNat ((a.toNat - 0xF0) * 262144 + (b.toNat - 0x80) * 4096 +
      (c.toNat - 0x80) * 64 + (d.toNat - 0x80)))
  else none

def first (a : UInt8) (rest : Bytes) : Glyph :=
  if a < 0x80 then .scalar (Char.ofNat a.toNat)
  else match rest with
    | b :: c :: d :: _ =>
      match two? a b <|> three? a b c <|> four? a b c d with
      | some s => .scalar s
      | none => .stray a
    | [b, c] =>
      match two? a b <|> three? a b c with
      | some s => .scalar s
      | none => .stray a
    | [b] =>
      match two? a b with
      | some s => .scalar s
      | none => .stray a
    | [] => .stray a

/-- The glyphs of a byte string after its first `skip` bytes. -/
def decodeFrom : Nat → Bytes → List Glyph
  | _, [] => []
  | skip + 1, _ :: rest => decodeFrom skip rest
  | 0, a :: rest => first a rest :: decodeFrom ((first a rest).size - 1) rest

/-- The glyphs of a byte string. A byte that does not begin a valid sequence is stray, and reading
goes on right after it. -/
def decode (s : Bytes) : List Glyph := decodeFrom 0 s

end Glyph

namespace Bytes

def chars (s : Bytes) : List Char := (Glyph.decode s).map Glyph.char

/-- A byte string as text, with U+FFFD for every stray byte. -/
def toText (s : Bytes) : String := String.ofList s.chars

def toText? (s : Bytes) : Option String :=
  let glyphs := Glyph.decode s
  if glyphs.any Glyph.isStray then none else some (String.ofList (glyphs.map Glyph.char))

def ofChars (cs : List Char) : Bytes := cs.flatMap ofChar

/-- The number of characters of a byte string, each stray byte counting as one. -/
def charCount (s : Bytes) : Nat := (Glyph.decode s).length

end Bytes

def hexDigit? (c : Char) : Option Nat :=
  if c.isDigit then some (c.toNat - 48)
  else if 'a' ≤ c && c ≤ 'f' then some (c.toNat - 87)
  else if 'A' ≤ c && c ≤ 'F' then some (c.toNat - 55)
  else none

end LuaLint
