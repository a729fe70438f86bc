/-!
# Patterns

Regular patterns over characters, and the test whether a text contains a match. Besides the usual
operators there are assertions about the place between two characters, such as the beginning of the
text or the edge of a word.

A pattern is matched by derivatives: the derivative by a character is the pattern for what may
follow it. An assertion holds or fails at a place, so derivatives and emptiness are taken at a
place.
-/

namespace LuaLint

/-! ## Character classes -/

/-- The other characters that count as the same letter when case is ignored. -/
def otherCases (code : Nat) : List Nat :=
  if code == 0x4B || code == 0x6B then [0x4B, 0x6B, 0x212A]
  else if code == 0x53 || code == 0x73 then [0x53, 0x73, 0x17F]
  else if code == 0x212A then [0x4B, 0x6B]
  else if code == 0x17F then [0x53, 0x73]
  else if 65 ≤ code && code ≤ 90 then [code + 32]
  else if 97 ≤ code && code ≤ 122 then [code - 32]
  else []

inductive ClassItem where
  | range (low high : Nat)
  /-- The characters in some ranges, or outside all of them. -/
  | group (ranges : List (Nat × Nat)) (negated : Bool)
  deriving DecidableEq, Repr

def ClassItem.holds (cases : List Nat) : ClassItem → Bool
  | .range low high => cases.any fun c => low ≤ c && c ≤ high
  | .group ranges negated =>
    ranges.any (fun r => cases.any fun c => r.1 ≤ c && c ≤ r.2) != negated

structure CharClass where
  items : List ClassItem
  negated : Bool
  fold : Bool
  deriving DecidableEq, Repr

namespace CharClass

def holds (k : CharClass) (c : Char) : Bool :=
  let cases := c.toNat :: if k.fold then otherCases c.toNat else []
  k.items.any (ClassItem.holds cases) != k.negated

def single (fold : Bool) (c : Nat) : CharClass := ⟨[.range c c], false, fold⟩

def any : CharClass := ⟨[], true, false⟩

def anyInLine : CharClass := ⟨[.range 10 10], true, false⟩

end CharClass

/-! ## Places -/

/-- A place in a text. -/
structure Spot where
  before : Option Char
  after : Option Char

/-- A condition on a place. -/
inductive Assertion where
  | textStart
  | textEnd
  | lineStart
  | lineEnd
  | wordEdge
  | noWordEdge
  deriving DecidableEq, Repr

namespace Assertion

def isWord (c : Char) : Bool := c.isAlphanum || c == '_'

def atWordEdge (s : Spot) : Bool := s.before.any isWord != s.after.any isWord

def holds (s : Spot) : Assertion → Bool
  | .textStart => s.before.isNone
  | .textEnd => s.after.isNone
  | .lineStart => s.before.all (· == '\n')
  | .lineEnd => s.after.all (· == '\n')
  | .wordEdge => atWordEdge s
  | .noWordEdge => !atWordEdge s

end Assertion

/-! ## Patterns -/

inductive Pattern where
  | never
  | empty
  | assert (a : Assertion)
  | one (k : CharClass)
  | seq (first second : Pattern)
  | alt (left right : Pattern)
  /-- Matches a pattern at least `least` times, and at most `most` times if that is given. -/
  | repeated (p : Pattern) (least : Nat) (most : Option Nat)
  deriving DecidableEq, Repr

namespace Pattern

def andThen : Pattern → Pattern → Pattern
  | .never, _ => .never
  | .empty, q => q
  | p, .empty => p
  | p, q => .seq p q

/-- Either of two patterns, in its simplest form. -/
def orElse (p q : Pattern) : Pattern :=
  match p, q with
  | .never, q => q
  | p, .never => p
  | p, q => if p = q then p else .alt p q

def emptyAt (s : Spot) : Pattern → Bool
  | .never => false
  | .empty => true
  | .assert a => a.holds s
  | .one _ => false
  | .seq p q => p.emptyAt s && q.emptyAt s
  | .alt p q => p.emptyAt s || q.emptyAt s
  | .repeated p least _ => least == 0 || p.emptyAt s

/-- What may follow the character `c` that comes after a place. When the repeated pattern matches
the empty text there, the required repetitions may all be used up at once. -/
def derive (s : Spot) (c : Char) : Pattern → Pattern
  | .never => .never
  | .empty => .never
  | .assert _ => .never
  | .one k => if k.holds c then .empty else .never
  | .seq p q =>
    let first := (p.derive s c).andThen q
    if p.emptyAt s then first.orElse (q.derive s c) else first
  | .alt p q => (p.derive s c).orElse (q.derive s c)
  | .repeated p least most =>
    if most == some 0 then .never
    else
      let least := if p.emptyAt s then 0 else least - 1
      (p.derive s c).andThen (.repeated p least (most.map (· - 1)))

/-- Whether a match of `p` occurs in what is left of a text, given what may still follow of matches
that have begun. -/
def occursFrom (p : Pattern) : Option Char → Pattern → List Char → Bool
  | before, begun, [] => (begun.orElse p).emptyAt ⟨before, none⟩
  | before, begun, c :: rest =>
    let live := begun.orElse p
    live.emptyAt ⟨before, some c⟩ ||
      occursFrom p (some c) (live.derive ⟨before, some c⟩ c) rest

def occursIn (p : Pattern) (text : List Char) : Bool := occursFrom p none .never text

end Pattern

end LuaLint
