import LuaLint.Text.Glyph

/-!
# Edit distance

How far apart two words are: the least number of characters to insert, delete or replace that turns
one into the other. A misspelt name is answered with the nearest known one.
-/

namespace LuaLint

namespace Distance

/-- The rest of a row of the distance table. `above` holds the previous row from the cell above and
to the left of the current one, `left` is the cell before it. -/
def cells (c : Char) : List Char → List Nat → Nat → List Nat
  | d :: word, corner :: up :: above, left =>
    let cell := min (corner + if c == d then 0 else 1) (min up left + 1)
    cell :: cells c word (up :: above) cell
  | _, _, _ => []

def nextRow (word : List Char) (row : List Nat) (c : Char) : List Nat :=
  let first := row.headD 0 + 1
  first :: cells c word row first

def ofChars (a b : List Char) : Nat :=
  (a.foldl (nextRow b) (List.range (b.length + 1))).getLastD 0

def between (a b : Bytes) : Nat := ofChars a.chars b.chars

end Distance

namespace Bytes

/-- The closest of some candidates with its distance, the earliest among equally close ones. -/
def closest? (name : Bytes) : List Bytes → Option (Bytes × Nat)
  | [] => none
  | c :: rest =>
    let d := Distance.between name c
    match closest? name rest with
    | some (other, e) => if e < d then some (other, e) else some (c, d)
    | none => some (c, d)

/-- The closest candidate, provided that it is close enough to be a plausible slip: two edits, or
one for every three bytes of a longer name. -/
def nearest? (name : Bytes) (candidates : List Bytes) : Option Bytes :=
  match closest? name candidates with
  | some (c, d) => if d ≤ max 2 (name.length / 3) then some c else none
  | none => none

end Bytes

end LuaLint
