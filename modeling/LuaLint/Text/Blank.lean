import LuaLint.Text.Glyph

/-!
# Blank characters

Two notions of white space occur: the six ASCII characters that separate Lua tokens, and the white
space of Unicode that is ignored around and inside directives and names.
-/

namespace LuaLint

namespace Blank

def isLuaSpace (code : Nat) : Bool :=
  code == 32 || (9 ≤ code && code ≤ 13)

def isSpace (code : Nat) : Bool :=
  isLuaSpace code || code == 0x85 || code == 0xA0 || code == 0x1680 ||
    (0x2000 ≤ code && code ≤ 0x200A) || code == 0x2028 || code == 0x2029 || code == 0x202F ||
    code == 0x205F || code == 0x3000

/-- Whether a glyph is white space of Unicode. A stray byte never is. -/
def isBlank : Glyph → Bool
  | .scalar c => isSpace c.toNat
  | .stray _ => false

end Blank

namespace Bytes

/-- A byte string without white space at its ends. -/
def trim (s : Bytes) : Bytes :=
  let kept := (Glyph.decode s).dropWhile Blank.isBlank
  ((kept.reverse.dropWhile Blank.isBlank).reverse).flatMap Glyph.bytes

/-- A byte string without any white space, every stray byte shown as U+FFFD. -/
def squeeze (s : Bytes) : Bytes := ofChars (s.chars.filter fun c => !Blank.isSpace c.toNat)

end Bytes

end LuaLint
