import LuaLint.Text.Glyph

/-!
# Lines

The lines of a named text, and the line and column of an offset. Any integer is an offset: one
before the text stands for its beginning and one past it for its end. The line of an offset is
looked up by bisection in an index of the offsets at which the lines begin.
-/

namespace LuaLint

structure SourceText where
  name : Bytes
  text : Bytes
  deriving DecidableEq, Repr

/-- A line and a column, both counted from 1. Columns count characters. -/
structure Position where
  line : Nat
  col : Nat
  deriving DecidableEq, Repr

namespace SourceText

def clamp (s : SourceText) (off : Int) : Nat := min off.toNat s.text.length

/-- The offsets behind the line feeds of the rest of a text, which begins at an offset. -/
def startsFrom : Nat → Bytes → List Nat
  | _, [] => []
  | off, b :: rest =>
    if b = 10 then (off + 1) :: startsFrom (off + 1) rest else startsFrom (off + 1) rest

/-- The line index: the offsets at which the lines begin. -/
def starts (s : SourceText) : Array Nat := (0 :: startsFrom 0 s.text).toArray

/-- The first number from `lo` on that satisfies `p`, or `hi`. Numbers that satisfy `p` must be
followed by such numbers only. Every step makes the interval shorter, so its length is enough
fuel. -/
def search (p : Nat → Bool) : (fuel lo hi : Nat) → Nat
  | 0, lo, _ => lo
  | fuel + 1, lo, hi =>
    if lo < hi then
      let mid := (lo + hi) / 2
      if p mid then search p fuel lo mid else search p fuel (mid + 1) hi
    else lo

/-- The offset at which a line begins, counted from 0. -/
def lineStart (s : SourceText) (line : Nat) : Nat := s.starts.getD line 0

/-- The line of an offset, counted from 0: the last one that does not begin behind the offset. -/
def lineOf (s : SourceText) (off : Int) : Nat :=
  let off := s.clamp off
  let starts := s.starts
  search (fun i => off < starts.getD i 0) starts.size 0 starts.size - 1

def position (s : SourceText) (off : Int) : Position :=
  let line := s.lineOf off
  ⟨line + 1, Bytes.charCount (s.text.slice (s.lineStart line) (s.clamp off)) + 1⟩

/-- The text of a line, counted from 1, without its terminator. A line that does not exist is
empty. -/
def line (s : SourceText) (n : Int) : Bytes :=
  if n < 1 || s.starts.size < n then []
  else
    -- The next line begins behind the line feed that ends this one.
    let stop := (s.starts[n.toNat]?.map (· - 1)).getD s.text.length
    (s.text.slice (s.lineStart (n.toNat - 1)) stop).dropEnd "\r"

def lineCount (s : SourceText) : Nat := s.starts.size

end SourceText

end LuaLint
