import LuaLint.Files.Path
import LuaLint.Text.Glyph

/-!
# Patterns of paths

Patterns such as `src/*.lua`: a star stands for any characters but a slash, a question mark for one
such character, and brackets for one character of a set.
-/

namespace LuaLint

/-! ## Patterns -/

/-- What stands for a single character. -/
inductive GlobItem where
  | byte (value : UInt8)
  | any
  /-- A character within one of the ranges or, if `negated`, within none of them. -/
  | set (negated : Bool) (ranges : List (Nat × Nat))
  deriving DecidableEq, Repr

/-- A stretch of a pattern: items, and whether a star stands before them. -/
structure GlobPiece where
  /-- Whether a star stands before the items. -/
  starred : Bool
  items : List GlobItem
  deriving DecidableEq, Repr

abbrev Glob := List GlobPiece

/-! ## Reading -/

namespace Glob

/-- A character of a set, which may follow a backslash, with the rest. There must be a rest. -/
def setChar? (s : Bytes) : Option (Nat × Bytes) :=
  let taken (t : Bytes) : Option (Nat × Bytes) :=
    match t with
    | [] => none
    | a :: more =>
      let g := Glyph.first a more
      let rest := t.drop g.size
      if g.isStray || rest.isEmpty then none else some (g.code, rest)
  match s with
  | [] => none
  | 45 :: _ => none
  | 93 :: _ => none
  | 92 :: rest => taken rest
  | _ => taken s

/-- The ranges of a set with what comes after its closing bracket. There is at least one range. -/
def ranges? : Nat → List (Nat × Nat) → Bytes → Option (List (Nat × Nat) × Bytes)
  | 0, _, _ => none
  | fuel + 1, acc, s =>
    match acc, s with
    | _ :: _, 93 :: rest => some (acc.reverse, rest)
    | _, _ =>
      match setChar? s with
      | none => none
      | some (low, 45 :: rest) =>
        match setChar? rest with
        | none => none
        | some (high, rest) => ranges? fuel ((low, high) :: acc) rest
      | some (low, rest) => ranges? fuel ((low, low) :: acc) rest

def push (item : GlobItem) : Glob → Glob
  | ⟨false, items⟩ :: rest => ⟨false, item :: items⟩ :: rest
  | pieces => ⟨false, [item]⟩ :: pieces

def pushStar : Glob → Glob
  | ⟨_, items⟩ :: rest => ⟨true, items⟩ :: rest
  | [] => [⟨true, []⟩]

/-- Reads a pattern from the front, with a bound for the number of its items. -/
def readFrom : Nat → Bytes → Option Glob
  | _, [] => some []
  | 0, _ => none
  | fuel + 1, 42 :: rest => (readFrom fuel rest).map pushStar
  | fuel + 1, 63 :: rest => (readFrom fuel rest).map (push .any)
  | fuel + 1, 92 :: b :: rest => (readFrom fuel rest).map (push (.byte b))
  | _ + 1, [92] => none
  | fuel + 1, 91 :: 94 :: rest =>
    match ranges? (rest.length + 1) [] rest with
    | some (ranges, rest) => (readFrom fuel rest).map (push (.set true ranges))
    | none => none
  | fuel + 1, 91 :: rest =>
    match ranges? (rest.length + 1) [] rest with
    | some (ranges, rest) => (readFrom fuel rest).map (push (.set false ranges))
    | none => none
  | fuel + 1, b :: rest => (readFrom fuel rest).map (push (.byte b))

/-- A pattern as it is written. Brackets that are not closed and a backslash at the end are
errors. -/
def read? (s : Bytes) : Option Glob := readFrom s.length s

/-! ## Matching -/

/-- What comes after the first character of a path, if an item stands for it. -/
def itemRest? (item : GlobItem) : Bytes → Option Bytes
  | [] => none
  | a :: rest =>
    let g := Glyph.first a rest
    match item with
    | .byte b => if a == b then some rest else none
    | .any => if a == Path.slash then none else some ((a :: rest).drop g.size)
    | .set negated ranges =>
      if (ranges.any fun r => r.1 ≤ g.code && g.code ≤ r.2) != negated then
        some ((a :: rest).drop g.size)
      else none

/-- What comes after the beginning of a path, if items stand for that. -/
def itemsRest? : List GlobItem → Bytes → Option Bytes
  | [], path => some path
  | item :: items, path =>
    match itemRest? item path with
    | some rest => itemsRest? items rest
    | none => none

/-- The rest that items leave where they fit first after some bytes that are no slash. With `whole`
they must leave nothing. -/
def firstFit? (whole : Bool) (items : List GlobItem) : Bytes → Option Bytes
  | [] => (itemsRest? items []).filter fun rest => !whole || rest.isEmpty
  | b :: path =>
    match (itemsRest? items (b :: path)).filter fun rest => !whole || rest.isEmpty with
    | some rest => some rest
    | none => if b == Path.slash then none else firstFit? whole items path

/-- Whether a pattern fits a path. A star gives its items the first place where they fit. -/
def accepts : Glob → Bytes → Bool
  | [], path => path.isEmpty
  | ⟨true, []⟩ :: _, path => !path.contains Path.slash
  | ⟨true, items⟩ :: rest, path =>
    match firstFit? rest.isEmpty items path with
    | some path => accepts rest path
    | none => false
  | ⟨false, items⟩ :: rest, path =>
    match itemsRest? items path with
    | some path => accepts rest path
    | none => false

/-- Whether a pattern as it is written fits a path. One that cannot be read fits nothing. -/
def fits (pattern path : Bytes) : Bool :=
  match read? pattern with
  | some glob => glob.accepts path
  | none => false

def excludes (patterns : List Bytes) (path : Bytes) : Bool :=
  let whole := Path.clean path
  patterns.any fun pattern => (whole :: Path.parts whole).any (fits pattern)

end Glob

end LuaLint
