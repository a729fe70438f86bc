/-!
# Byte strings

Lua source is a sequence of bytes and need not be valid UTF-8. Everything that is cut out of a
source, and every message that quotes it, is therefore a list of bytes. String literals coerce to
their UTF-8 bytes, so that messages can be written as text.
-/

namespace LuaLint

abbrev Bytes := List UInt8

namespace Bytes

/-! ## Building -/

def ofString (s : String) : Bytes := s.toUTF8.data.toList

instance : Coe String Bytes := ⟨ofString⟩

def ofChar (c : Char) : Bytes := String.utf8EncodeChar c

def byte (c : Char) : UInt8 := c.toNat.toUInt8

def ofNat (n : Nat) : Bytes := ofString (toString n)

/-- An integer in decimal, with a minus sign when it is negative. -/
def ofInt (n : Int) : Bytes :=
  if n < 0 then "-" ++ ofNat n.natAbs else ofNat n.natAbs

def copies (n : Nat) (piece : Bytes) : Bytes := (List.replicate n piece).flatten

def join (sep : Bytes) (pieces : List Bytes) : Bytes := List.intercalate sep pieces

/-! ## Looking at the ends -/

def startsWith (s start : Bytes) : Bool := start.isPrefixOf s

def endsWith (s tail : Bytes) : Bool := tail.isSuffixOf s

def after? (s start : Bytes) : Option Bytes :=
  if start.isPrefixOf s then some (s.drop start.length) else none

def dropEnd (s tail : Bytes) : Bytes :=
  if tail.isSuffixOf s then s.take (s.length - tail.length) else s

def slice (s : Bytes) (start stop : Nat) : Bytes := (s.drop start).take (stop - start)

/-! ## Searching and cutting -/

/-- The first offset at which `piece` occurs in `s`. -/
def find? (piece : Bytes) : Bytes → Option Nat
  | [] => if piece.isEmpty then some 0 else none
  | b :: rest =>
    if piece.isPrefixOf (b :: rest) then some 0 else (find? piece rest).map (· + 1)

def holds (s piece : Bytes) : Bool := (find? piece s).isSome

/-- The pieces of a byte string between occurrences of the byte `sep`. There is always at least
one piece. -/
def split (sep : UInt8) : Bytes → List Bytes
  | [] => [[]]
  | b :: rest =>
    if b = sep then [] :: split sep rest
    else match split sep rest with
      | [] => [[b]]
      | piece :: pieces => (b :: piece) :: pieces

/-- The part before the first occurrence of `sep` and the part after it. -/
def cut? (sep : UInt8) (s : Bytes) : Option (Bytes × Bytes) :=
  if s.contains sep then
    some (s.takeWhile (· != sep), (s.dropWhile (· != sep)).drop 1)
  else none

def replaceByte (b : UInt8) (piece : Bytes) (s : Bytes) : Bytes :=
  s.flatMap fun c => if c = b then piece else [c]

/-- The number of line feeds in `s`. -/
def newlines (s : Bytes) : Nat := s.count 10

/-! ## Order -/

/-- Whether `a` comes strictly before `b` in byte-wise lexicographic order. -/
def before : Bytes → Bytes → Bool
  | [], [] => false
  | [], _ :: _ => true
  | _ :: _, [] => false
  | a :: as, b :: bs => if a < b then true else if b < a then false else before as bs

def notAfter (a b : Bytes) : Bool := !before b a

def sort (names : List Bytes) : List Bytes := names.mergeSort notAfter

/-! ## Letters -/

def lowerByte (b : UInt8) : UInt8 := if 65 ≤ b ∧ b ≤ 90 then b + 32 else b

def upperByte (b : UInt8) : UInt8 := if 97 ≤ b ∧ b ≤ 122 then b - 32 else b

end Bytes

end LuaLint
