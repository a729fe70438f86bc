import LuaLint.Text.Bytes

/-!
# Spans

A span is a half-open range of byte offsets of a source.
-/

namespace LuaLint

/-- A half-open range of byte offsets. -/
structure Span where
  start : Nat
  stop : Nat
  deriving DecidableEq, Repr, Inhabited

namespace Span

def covers (s : Span) (off : Int) : Bool := s.start ≤ off && off < s.stop

theorem covers_iff {s : Span} {off : Nat} : s.covers off = true ↔ s.start ≤ off ∧ off < s.stop := by
  simp [covers]

/-- Whether the offset `off` lies in the span or just past its end. -/
def touches (s : Span) (off : Int) : Bool := s.start ≤ off && off ≤ s.stop

theorem touches_iff {s : Span} {off : Nat} :
    s.touches off = true ↔ s.start ≤ off ∧ off ≤ s.stop := by
  simp [touches]

/-- Whether `other` lies completely within the span. -/
def encloses (s other : Span) : Bool := s.start ≤ other.start && other.stop ≤ s.stop

def length (s : Span) : Int := (s.stop : Int) - s.start

def text (s : Span) : Bytes := Bytes.ofNat s.start ++ ".." ++ Bytes.ofNat s.stop

/-- The bytes of `source` that a span covers, or nothing when it reaches past the end. -/
def textOf (s : Span) (source : Bytes) : Bytes :=
  if s.stop > source.length || s.start > s.stop then [] else source.slice s.start s.stop

end Span

end LuaLint
