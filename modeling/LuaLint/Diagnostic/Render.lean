import LuaLint.Diagnostic.Basic
import LuaLint.Json.Value
import LuaLint.Source.Lines

/-!
# Showing diagnostics

Three forms of a diagnostic: a snippet of the source with the labelled ranges underlined, a single
line, and a JSON object.
-/

namespace LuaLint

/-! ## Colours -/

inductive ColorMode where
  | auto
  | always
  | never
  deriving DecidableEq, Repr

namespace ColorMode

def ofName? (word : Bytes) : Option ColorMode :=
  if word == "auto" || word == "" then some .auto
  else if word == "always" then some .always
  else if word == "never" then some .never
  else none

def unknownName (word : Bytes) : Bytes :=
  "invalid color mode " ++ Quoted.text word ++ ", expected auto, always or never"

end ColorMode

/-- The escape sequences around the parts of a snippet. -/
structure Palette where
  bold : Bytes
  /-- Begins what belongs to an error. -/
  red : Bytes
  /-- Begins what belongs to a warning. -/
  yellow : Bytes
  /-- Begins the frame around the source. -/
  blue : Bytes
  /-- Begins notes and what has another severity. -/
  cyan : Bytes
  reset : Bytes

namespace Palette

def plain : Palette := ⟨[], [], [], [], [], []⟩

def ansi : Palette :=
  ⟨"\x1b[1m", "\x1b[1;31m", "\x1b[1;33m", "\x1b[1;34m", "\x1b[1;36m", "\x1b[0m"⟩

/-- The palette for a mode, given whether the output may be coloured where it goes. -/
def ofMode (mode : ColorMode) (colorful : Bool) : Palette :=
  match mode with
  | .always => ansi
  | .never => plain
  | .auto => if colorful then ansi else plain

def ofSeverity (p : Palette) : Severity → Bytes
  | .error => p.red
  | .warning => p.yellow
  | _ => p.cyan

end Palette

/-! ## Underlines -/

/-- The number of columns of a text: four for a tab, one for any other character. -/
def displayWidth (s : Bytes) : Nat :=
  s.chars.foldr (fun c width => (if c == '\t' then 4 else 1) + width) 0

/-- A line as it is printed, with four blanks for a tab. -/
def displayLine (s : Bytes) : Bytes := Bytes.replaceByte 9 "    " s

/-- Where the marks for a label stand under its first line. -/
structure Underline where
  indent : Nat
  width : Nat
  deriving DecidableEq, Repr

/-- The marks for the range from `start` to `stop` under a line that begins at offset `lineStart`.
What lies outside the line is left out, and there is always at least one mark. Differences of
offsets are exact here, where those of machine integers may wrap. -/
def Underline.of (line : Bytes) (lineStart : Nat) (start stop : Int) : Underline :=
  let first := min (start - lineStart).toNat line.length
  let past := max first (min (stop - lineStart).toNat line.length)
  ⟨displayWidth (line.take first), max 1 (Bytes.charCount (line.slice first past))⟩

/-! ## Snippets -/

namespace Diagnostic

/-- The labels of a finding in the order of their starts, each with whether it is the primary
one. -/
def labels (d : Diagnostic) : List (Label × Bool) :=
  ((d.primary, true) :: d.secondary.map fun l => (l, false)).mergeSort
    fun a b => a.1.start ≤ b.1.start

/-- The number of columns that the largest line number shown takes. -/
def gutter (source : SourceText) (d : Diagnostic) : Nat :=
  let lines := (d.primary :: d.secondary).map fun l => source.lineOf l.start + 1
  (Bytes.ofNat (lines.foldl max 0)).length

/-- The underline of a label, after the line it belongs to when `showLine` is set. -/
def labelText (p : Palette) (source : SourceText) (gutter : Nat) (severity : Severity)
    (label : Label) (primary showLine : Bool) : Bytes :=
  let lineIndex := source.lineOf label.start
  let line := source.line (lineIndex + 1)
  let number := Bytes.ofNat (lineIndex + 1)
  let shown : Bytes :=
    if showLine then
      p.blue ++ Bytes.copies (gutter - number.length) " " ++ number ++ " |" ++ p.reset ++ " " ++
        displayLine line ++ "\n"
    else []
  let marks := Underline.of line (source.lineStart lineIndex) label.start label.stop
  let color : Bytes := if primary then p.ofSeverity severity else p.blue
  let mark : Bytes := if primary then "^" else "-"
  let message : Bytes :=
    if label.message.isEmpty then [] else " " ++ color ++ label.message ++ p.reset
  shown ++ Bytes.copies gutter " " ++ " " ++ p.blue ++ "|" ++ p.reset ++ " " ++
    Bytes.copies marks.indent " " ++ color ++ Bytes.copies marks.width mark ++ p.reset ++
    message ++ "\n"

/-- The source lines and underlines of some labels. Labels on one line share it, and dots stand for
skipped lines. `last` is the line shown last, 0 at first. -/
def labelsText (p : Palette) (source : SourceText) (gutter : Nat) (severity : Severity) :
    Nat → List (Label × Bool) → Bytes
  | _, [] => []
  | last, (label, primary) :: rest =>
    let line := source.lineOf label.start + 1
    let gap : Bytes :=
      if last != 0 && line > last + 1 then
        Bytes.copies (gutter - 1) " " ++ p.blue ++ "..." ++ p.reset ++ "\n"
      else []
    gap ++ labelText p source gutter severity label primary (line != last) ++
      labelsText p source gutter severity line rest

def noteText (p : Palette) (gutter : Nat) (note : Bytes) : Bytes :=
  let pad : Bytes := Bytes.copies gutter " "
  match note.split 10 with
  | [] => []
  | first :: more =>
    let indent : Bytes := pad ++ "         "
    pad ++ " " ++ p.cyan ++ "=" ++ p.reset ++ " note: " ++ first ++ "\n" ++
      Bytes.join [] (more.map fun line => indent ++ line ++ "\n")

def snippet (p : Palette) (source : SourceText) (d : Diagnostic) : Bytes :=
  let gutter := gutter source d
  let pad : Bytes := Bytes.copies gutter " "
  let place := source.position d.primary.start
  p.ofSeverity d.severity ++ d.severity.label ++ "[" ++ d.code ++ "]" ++ p.reset ++ ": " ++
    p.bold ++ d.message ++ p.reset ++ "\n" ++
  pad ++ p.blue ++ "-->" ++ p.reset ++ " " ++ source.name ++ ":" ++ Bytes.ofNat place.line ++
    ":" ++ Bytes.ofNat place.col ++ "\n" ++
  pad ++ " " ++ p.blue ++ "|" ++ p.reset ++ "\n" ++
  labelsText p source gutter d.severity 0 d.labels ++
  pad ++ " " ++ p.blue ++ "|" ++ p.reset ++ "\n" ++
  d.notes.flatMap (noteText p gutter)

def snippets (p : Palette) (source : SourceText) (ds : List Diagnostic) : Bytes :=
  Bytes.join "\n" (ds.map (snippet p source))

/-! ## Other forms -/

def brief (source : SourceText) (d : Diagnostic) : Bytes :=
  let place := source.position d.primary.start
  source.name ++ ":" ++ Bytes.ofNat place.line ++ ":" ++ Bytes.ofNat place.col ++ ": " ++
    d.severity.label ++ "[" ++ d.code ++ "]: " ++ d.message ++ "\n"

def severityWord : Severity → Bytes
  | .error => "Error"
  | .warning => "Warning"
  | _ => "Help"

/-- A label as a JSON object, its range in bytes and in lines and columns. -/
def labelJson (source : SourceText) (label : Label) : JsonValue :=
  let start := source.position label.start
  let stop := source.position label.stop
  .object [
    ("span", .object [
      ("start", .int label.start), ("start_line", .nat start.line),
      ("start_column", .nat start.col), ("end", .int label.stop),
      ("end_line", .nat stop.line), ("end_column", .nat stop.col)]),
    ("message", .text label.message)]

def json (source : SourceText) (d : Diagnostic) : JsonValue :=
  .object [
    ("type", .text "Diagnostic"), ("file", .text source.name),
    ("severity", .text (severityWord d.severity)), ("code", .text d.code),
    ("message", .text d.message), ("primary_label", labelJson source d.primary),
    ("notes", .texts d.notes), ("secondary_labels", .list (d.secondary.map (labelJson source)))]

end Diagnostic

end LuaLint
