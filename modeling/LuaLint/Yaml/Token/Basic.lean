import LuaLint.Text.Glyph

/-!
# YAML tokens

The tokens of a YAML stream, and places in its text. Indentation shows up as tokens of its own: a
block opens when a line stands further to the right than the block around it, and closes when a line
stands further to the left.
-/

namespace LuaLint.Yaml

/-! ## Tokens -/

inductive TokenKind where
  | streamEnd
  | documentStart
  | documentEnd
  /-- A `%YAML` directive and whether its version is supported. -/
  | version (supported : Bool)
  | tagDirective (shorthand full : Bytes)
  | blockSequenceStart
  | blockMappingStart
  | blockEnd
  | flowSequenceStart
  | flowSequenceEnd
  | flowMappingStart
  | flowMappingEnd
  /-- The dash in front of a list item. -/
  | blockEntry
  | flowEntry
  | key
  | value
  | alias (name : Bytes)
  | anchor (name : Bytes)
  | tag (shorthand rest : Bytes)
  /-- A scalar, written without quotes or in another style. -/
  | scalar (plain : Bool) (value : Bytes)
  | fault
  deriving DecidableEq, Repr, Inhabited

structure Token where
  kind : TokenKind
  /-- The line it begins on, counted from zero. -/
  line : Nat
  deriving DecidableEq, Repr, Inhabited

/-! ## Characters and places -/

def isBreak (c : Char) : Bool := c == '\n' || c == '\u2028' || c == '\u2029'

def isBlank (c : Char) : Bool := c == ' ' || c == '\t'

def isWord (c : Char) : Bool := c.isAlphanum || c == '_' || c == '-'

/-- A character that separates the parts of a collection in brackets. -/
def isFlowSign (c : Char) : Bool := [',', '?', '[', ']', '\x7b', '\x7d'].contains c

/-- Whether a text begins with a blank or a break, or is at its end. -/
def atGap : List Char → Bool
  | [] => true
  | c :: _ => isBlank c || isBreak c

def atDocumentMark : List Char → Bool
  | '-' :: '-' :: '-' :: rest => atGap rest
  | '.' :: '.' :: '.' :: rest => atGap rest
  | _ => false

/-- A place in a text. -/
structure Cursor where
  rest : List Char
  line : Nat
  /-- The number of characters before it on its line. -/
  column : Nat
  /-- The number of characters before it. -/
  index : Nat
  deriving Repr, Inhabited

namespace Cursor

def advance (c : Cursor) : Cursor :=
  match c.rest with
  | [] => c
  | ch :: rest =>
    if isBreak ch then ⟨rest, c.line + 1, 0, c.index + 1⟩
    else ⟨rest, c.line, c.column + 1, c.index + 1⟩

def advanceBy : Nat → Cursor → Cursor
  | 0, c => c
  | n + 1, c => advanceBy n c.advance

def skipWhile (p : Char → Bool) (c : Cursor) : Cursor :=
  c.advanceBy (c.rest.takeWhile p).length

def skipLine (c : Cursor) : Cursor := c.skipWhile fun ch => !isBreak ch

/-- The place after the comments that begin here, up to the end of the line of the last one. -/
def skipComments : Nat → Cursor → Cursor
  | 0, c => c
  | fuel + 1, c =>
    let past := c.skipLine
    let ahead := past.skipWhile fun ch => isBlank ch || isBreak ch
    if ahead.rest.head? = some '#' then skipComments fuel ahead else past

/-- The place after the comment that follows on the same line. -/
def skipTrailingComment (c : Cursor) : Cursor :=
  let ahead := c.skipWhile isBlank
  if c.column != 0 && ahead.rest.head? = some '#' then ahead.skipLine else c

end Cursor

end LuaLint.Yaml
