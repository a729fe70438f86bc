import LuaLint.Diagnostic.Basic

/-!
# Positions in an editor

An editor counts lines and, within a line, the units of 16 bits that encode the characters. These
functions convert between such positions and byte offsets.
-/

namespace LuaLint

/-- A place in a document, both parts counted from 0. -/
structure EditorPosition where
  line : Nat
  /-- The number of 16-bit units before the place in its line. -/
  character : Nat
  deriving DecidableEq, Repr, Inhabited

structure EditorRange where
  start : EditorPosition
  stop : EditorPosition
  deriving DecidableEq, Repr, Inhabited

namespace Glyph

def units (g : Glyph) : Nat := if g.code ≥ 0x10000 then 2 else 1

def isNewline (g : Glyph) : Bool := g.code == 10

end Glyph

namespace EditorPosition

/-- The number of line feeds in a text from an offset on, and where its last line begins, given both
for what comes before. -/
def countLines : (off line start : Nat) → Bytes → Nat × Nat
  | _, line, start, [] => (line, start)
  | off, line, start, b :: rest =>
    if b = 10 then countLines (off + 1) (line + 1) (off + 1) rest
    else countLines (off + 1) line start rest

/-- The position of an offset, or of the nearest one inside of the text. The numbers of a position
have 32 bits in an editor; they are at most the length of the text. -/
def ofOffset (content : Bytes) (off : Int) : EditorPosition :=
  let off := min off.toNat content.length
  let (line, start) := countLines 0 0 0 (content.take off)
  ⟨line, (Glyph.decode (content.slice start off)).foldr (fun g units => g.units + units) 0⟩

def lineOffset? : Nat → Bytes → Option Nat
  | 0, _ => some 0
  | line + 1, content =>
    match content.dropWhile (· != 10) with
    | [] => none
    | _ :: rest =>
      (lineOffset? line rest).map (· + (content.takeWhile (· != 10)).length + 1)

/-- The number of bytes in which a number of units fits, up to the end of the line. A character that
is begun is taken whole. -/
def bytesFor : Nat → List Glyph → Nat
  | _, [] => 0
  | wanted, g :: rest =>
    if wanted == 0 || g.isNewline then 0 else g.size + bytesFor (wanted - g.units) rest

/-- The offset of a position. One past the end of its line stands for that end, and one on a line
that does not exist for the end of the text. -/
def offset (content : Bytes) (p : EditorPosition) : Nat :=
  match lineOffset? p.line content with
  | none => content.length
  | some start => start + bytesFor p.character (Glyph.decode (content.drop start))

end EditorPosition

namespace EditorRange

def ofLabel (content : Bytes) (l : Label) : EditorRange :=
  ⟨.ofOffset content l.start, .ofOffset content l.stop⟩

def ofSpan (content : Bytes) (s : Span) : EditorRange := ofLabel content (.ofSpan s)

end EditorRange

end LuaLint
