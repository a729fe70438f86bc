import LuaLint.Text.Glyph
import LuaLint.Text.Printable

/-!
# Quoted text

Messages show source text between quotes. Printable characters stand for themselves, the usual
control characters have a one-letter escape, stray bytes and other control characters are written in
hexadecimal.
-/

namespace LuaLint.Quoted

def hex (width code : Nat) : Bytes :=
  let digits := Nat.toDigits 16 code
  (List.replicate (width - digits.length) '0' ++ digits).map Bytes.byte

def letterEscape? (code : Nat) : Option Char :=
  if code = 7 then some 'a'
  else if code = 8 then some 'b'
  else if code = 12 then some 'f'
  else if code = 10 then some 'n'
  else if code = 13 then some 'r'
  else if code = 9 then some 't'
  else if code = 11 then some 'v'
  else none

def escape (quote c : Char) : Bytes :=
  let code := c.toNat
  if c = quote || c = '\\' then "\\" ++ Bytes.ofChar c
  else if Printable.isPrintable code then Bytes.ofChar c
  else match letterEscape? code with
    | some letter => "\\" ++ Bytes.ofChar letter
    | none =>
      if code < 32 || code = 127 then "\\x" ++ hex 2 code
      else if code < 0x10000 then "\\u" ++ hex 4 code
      else "\\U" ++ hex 8 code

def glyph : Glyph → Bytes
  | .scalar c => escape '"' c
  | .stray b => "\\x" ++ hex 2 b.toNat

def text (s : Bytes) : Bytes := "\"" ++ (Glyph.decode s).flatMap glyph ++ "\""

def character (code : Nat) : Bytes :=
  let c := if code.isValidChar then Char.ofNat code else '�'
  "'" ++ escape '\'' c ++ "'"

end LuaLint.Quoted
