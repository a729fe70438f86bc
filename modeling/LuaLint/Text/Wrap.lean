import LuaLint.Text.Blank
import LuaLint.Text.Width

/-!
# Wrapping

Breaking a text into lines of limited width at its white space and after its hyphens. Line breaks
of the text are kept. Control sequences of terminals take no room.
-/

namespace LuaLint

namespace Wrap

/-! ## Control sequences -/

/-- Whether a control sequence goes on after a character, given whether one was under way. A letter
ends it. -/
def inSequence (under : Bool) (c : Char) : Bool :=
  c == '\x1b' || (under && !c.isAlpha && c != '@')

/-! ## Lines -/

/-- The state of wrapping: what is written, and the white space and the word that come next but may
still be moved to another line. -/
structure State where
  written : Bytes
  width : Nat
  /-- White space that has not been written. -/
  space : Bytes
  /-- A word that has not been written. -/
  word : List Char
  wordWidth : Nat
  escaped : Bool

namespace State

/-- Nothing has been read. -/
def start : State := ⟨[], 0, [], [], 0, false⟩

def writeSpace (s : State) : State :=
  { s with written := s.written ++ s.space, width := s.width + s.space.length, space := [] }

def writeWord (s : State) : State :=
  if s.word.isEmpty then s
  else
    let s := s.writeSpace
    { s with
      written := s.written ++ Bytes.ofChars s.word
      width := s.width + s.wordWidth
      word := []
      wordWidth := 0 }

/-- Begins a new line. White space does not move to it. -/
def breakLine (s : State) : State :=
  { s with written := s.written ++ "\n", width := 0, space := [] }

/-- Reads a line break. White space at the end of a line is kept when there is room for it. -/
def endLine (limit : Nat) (s : State) : State :=
  if s.word.isEmpty then
    if s.width + s.space.length > limit then s.breakLine
    else { s with written := s.written ++ s.space }.breakLine
  else s.writeWord.breakLine

/-- Reads a character of a word. The word moves to the next line when there is no room for it on
this one but would be on a line of its own. -/
def grow (limit : Nat) (s : State) (c : Char) : State :=
  let s := { s with word := s.word ++ [c], wordWidth := s.wordWidth + Width.ofCode c.toNat }
  if s.width + s.space.length + s.wordWidth > limit && s.wordWidth < limit then s.breakLine else s

def step (limit : Nat) (s : State) (c : Char) : State :=
  if s.escaped || c == '\x1b' then
    { s with word := s.word ++ [c], escaped := inSequence s.escaped c }
  else if c == '\n' then s.endLine limit
  else if Blank.isSpace c.toNat then
    let s := s.writeWord
    { s with space := s.space ++ Bytes.ofChar c }
  else if c == '-' then
    let s := s.writeSpace.writeWord
    { s with written := s.written ++ "-" }
  else s.grow limit c

end State

end Wrap

/-- A text with its lines broken so that they have at most `limit` columns where that is possible.
White space at its end is dropped. -/
def Bytes.wrap (limit : Nat) (s : Bytes) : Bytes :=
  (s.chars.foldl (Wrap.State.step limit) Wrap.State.start).writeWord.written

/-! ## Indentation -/

namespace Wrap

/-- A text with a piece before the first visible character of each line, given whether the line has
had it and whether a control sequence is under way. -/
def indentFrom (piece : Bytes) : Bool → Bool → List Char → Bytes
  | _, _, [] => []
  | done, escaped, c :: rest =>
    if escaped || c == '\x1b' then
      Bytes.ofChar c ++ indentFrom piece done (inSequence escaped c) rest
    else
      (if done then [] else piece) ++ Bytes.ofChar c ++ indentFrom piece (c != '\n') false rest

end Wrap

/-- A text with `n` blanks before each of its lines, empty ones included. -/
def Bytes.indent (n : Nat) (s : Bytes) : Bytes :=
  Wrap.indentFrom (Bytes.copies n " ") false false s.chars

end LuaLint
