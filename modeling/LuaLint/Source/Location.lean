import LuaLint.Text.Bytes

/-!
# Locations

A mark counts bytes, lines and columns up to a place in a source. A location names the source as
well and is what error messages begin with.
-/

namespace LuaLint

structure Mark where
  /-- Byte offset, from 0. -/
  pos : Nat
  /-- Line, from 1. -/
  line : Nat
  /-- Byte column, from 1. -/
  col : Nat
  deriving DecidableEq, Repr, Inhabited

def Mark.first : Mark := ⟨0, 1, 1⟩

/-- A place in a named source. The line is 0 when only the offset is known. -/
structure Location where
  file : Bytes
  /-- Byte offset, or negative when nothing but the source is known. -/
  pos : Int
  /-- Line, or 0 when it is not known. -/
  line : Int
  /-- Byte column, or 0 when it is not known. -/
  col : Int
  deriving DecidableEq, Repr, Inhabited

namespace Location

def ofMark (file : Bytes) (mark : Mark) : Location := ⟨file, mark.pos, mark.line, mark.col⟩

def ofOffset (file : Bytes) (pos : Nat) : Location := ⟨file, pos, 0, 0⟩

/-- A location as it is written in front of a message. Parts that are not known are left out. -/
def text (l : Location) : Bytes :=
  if l.pos < 0 then l.file
  else if l.line = 0 then l.file ++ "[" ++ Bytes.ofInt l.pos ++ "]"
  else if l.col = 0 then l.file ++ ":" ++ Bytes.ofInt l.line
  else l.file ++ ":" ++ Bytes.ofInt l.line ++ ":" ++ Bytes.ofInt l.col

def located (l : Location) (message : Bytes) : Bytes := l.text ++ ": " ++ message

end Location

end LuaLint
