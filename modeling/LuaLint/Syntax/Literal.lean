import LuaLint.Source.Scanner

/-!
# String literals

A string literal spells a byte string. Between quotes a backslash begins an escape sequence; between
long brackets every byte stands for itself, but a line break right after the opening bracket is left
out.
-/

namespace LuaLint

/-- Why an escape sequence is not valid. -/
inductive EscapeError where
  | truncated
  | hexDigit
  | braces
  /-- `\u` with a number that is none or beyond the last code point. -/
  | codeTooLarge
  /-- A letter, given by its byte, that no escape begins with. -/
  | unknown (letter : UInt8)
  | byteTooLarge
  deriving DecidableEq, Repr

def EscapeError.message : EscapeError → Bytes
  | .truncated => "invalid escape sequence"
  | .hexDigit => "hexadecimal digit expected"
  | .braces => "missing braces in \\u escape"
  | .codeTooLarge => "UTF-8 value too large"
  | .unknown letter =>
    "invalid escape sequence '\\" ++ Bytes.ofChar (Char.ofNat letter.toNat) ++ "'"
  | .byteTooLarge => "decimal escape too large"

namespace Literal

/-! ## Numbers in escapes -/

/-- The number written by hexadecimal digits, when there are only such digits and at least one. -/
def hexNumber? (digits : Bytes) : Option Nat :=
  if digits.isEmpty || digits.any (fun b => !Ascii.isHexDigit b.toNat) then none
  else some (digits.foldl (fun n b => n * 16 + Ascii.hexValue b.toNat) 0)

/-- The bytes of a code point. A surrogate is replaced by U+FFFD. -/
def codePoint (code : Nat) : Bytes :=
  if code.isValidChar then Bytes.ofChar (Char.ofNat code) else Bytes.ofChar '�'

/-! ## Quoted strings -/

/-- The byte of a one-letter escape. A line feed stands for itself. -/
def letterByte? (letter : UInt8) : Option UInt8 :=
  if letter = 97 then some 7
  else if letter = 98 then some 8
  else if letter = 102 then some 12
  else if letter = 110 || letter = 10 then some 10
  else if letter = 114 then some 13
  else if letter = 116 then some 9
  else if letter = 118 then some 11
  else if letter = 92 || letter = 34 || letter = 39 then some letter
  else none

/-- Where the reading of a quoted string stands. -/
inductive Mode where
  | plain
  | escaped
  /-- Within the white space that `\z` skips. -/
  | skipping
  /-- After `\x`, with the digits read so far. -/
  | hex (digits : Bytes)
  /-- After `\u`, before its brace. -/
  | brace
  /-- Within the braces of `\u`, with the bytes read so far. -/
  | code (digits : Bytes)
  /-- Within a decimal escape, with its value and the number of digits read so far. -/
  | decimal (value count : Nat)
  deriving DecidableEq, Repr

def prepend (bytes : Bytes) (rest : Except EscapeError Bytes) : Except EscapeError Bytes :=
  rest.map (bytes ++ ·)

/-- The byte of a finished decimal escape in front of what the rest spells. -/
def finishDecimal (value : Nat) (rest : Except EscapeError Bytes) : Except EscapeError Bytes :=
  if value > 255 then .error .byteTooLarge else prepend [value.toUInt8] rest

/-- The byte string spelled by the rest of a quoted string. -/
def unescape : Mode → Bytes → Except EscapeError Bytes
  | .plain, [] => .ok []
  | .skipping, [] => .ok []
  | .escaped, [] => .error .truncated
  | .hex _, [] => .error .hexDigit
  | .brace, [] => .error .braces
  | .code _, [] => .error .braces
  | .decimal value _, [] => finishDecimal value (.ok [])
  | .plain, b :: rest =>
    if b = 92 then unescape .escaped rest else prepend [b] (unescape .plain rest)
  | .skipping, b :: rest =>
    if Blank.isLuaSpace b.toNat then unescape .skipping rest
    else if b = 92 then unescape .escaped rest
    else prepend [b] (unescape .plain rest)
  | .escaped, b :: rest =>
    match letterByte? b with
    | some byte => prepend [byte] (unescape .plain rest)
    | none =>
      if b = 122 then unescape .skipping rest
      else if b = 120 then
        if rest.length < 2 then .error .hexDigit else unescape (.hex []) rest
      else if b = 117 then
        if rest.contains 125 then unescape .brace rest else .error .braces
      else if Ascii.isDigit b.toNat then unescape (.decimal (b.toNat - 48) 1) rest
      else .error (.unknown b)
  | .hex digits, b :: rest =>
    if digits.isEmpty then unescape (.hex [b]) rest
    else match hexNumber? (digits ++ [b]) with
      | some value => prepend [value.toUInt8] (unescape .plain rest)
      | none => .error .hexDigit
  | .brace, b :: rest =>
    if b = 123 then unescape (.code []) rest else .error .braces
  | .code digits, b :: rest =>
    if b = 125 then
      match hexNumber? digits with
      | some value =>
        if value > 0x10FFFF then .error .codeTooLarge
        else prepend (codePoint value) (unescape .plain rest)
      | none => .error .codeTooLarge
    else unescape (.code (digits ++ [b])) rest
  | .decimal value count, b :: rest =>
    if count < 3 && Ascii.isDigit b.toNat then
      unescape (.decimal (value * 10 + (b.toNat - 48)) (count + 1)) rest
    else if b = 92 then finishDecimal value (unescape .escaped rest)
    else finishDecimal value (prepend [b] (unescape .plain rest))

/-- The byte string spelled by a quoted literal, its quotes included. -/
def unquote (raw : Bytes) : Except EscapeError Bytes :=
  unescape .plain (raw.slice 1 (raw.length - 1))

/-! ## Long strings -/

def dropLineBreak : Bytes → Bytes
  | 13 :: 10 :: rest => rest
  | 10 :: 13 :: rest => rest
  | 10 :: rest => rest
  | 13 :: rest => rest
  | s => s

/-- The byte string spelled by a literal in long brackets, its brackets included. -/
def unbracket (raw : Bytes) : Bytes :=
  let level := ((raw.drop 1).takeWhile (· != 91)).length
  dropLineBreak (raw.slice (level + 2) (raw.length - level - 2))

end Literal

end LuaLint
