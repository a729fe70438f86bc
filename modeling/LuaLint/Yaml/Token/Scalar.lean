import LuaLint.Yaml.Token.Basic

/-!
# Scalars in YAML streams

How scalars are written: without quotes, in quotes of two kinds, and as indented blocks. A scalar of
the first kinds can go on over several lines, whose breaks become spaces.
-/

namespace LuaLint.Yaml

/-- What has been passed since the last character of a scalar that may go on. -/
structure Pause where
  broken : Bool
  /-- The blanks before the end of the line, last first. -/
  blanks : List Char
  first : List Char
  /-- The further line breaks, last first. -/
  more : List Char
  deriving Repr

namespace Pause

def none : Pause := ⟨false, [], [], []⟩

/-- The pause with one more blank. Blanks at the beginning of a line do not count. -/
def blank (p : Pause) (c : Char) : Pause :=
  if p.broken then p else { p with blanks := c :: p.blanks }

def lineBreak (p : Pause) (c : Char) : Pause :=
  if p.broken then { p with more := c :: p.more } else ⟨true, [], [c], []⟩

/-- What a pause adds to the scalar. A single line break becomes a space. -/
def text (p : Pause) : List Char :=
  if p.broken then
    if p.first = ['\n'] then if p.more.isEmpty then [' '] else p.more.reverse
    else p.first ++ p.more.reverse
  else p.blanks.reverse

end Pause

/-- A scalar that has been read, the place after it, and whether a line ended before that place. -/
structure ScalarEnd where
  text : List Char
  here : Cursor
  /-- Whether the scalar was followed by a line break. -/
  broken : Bool
  deriving Repr

/-- Reads a scalar without quotes. Its further lines must stand at least in the column `indent`. -/
def plainFrom (indent : Int) (flow : Bool) :
    Nat → Cursor → Pause → List Char → Option ScalarEnd
  | 0, _, _, _ => none
  | fuel + 1, c, p, acc =>
    let done : Option ScalarEnd := some ⟨acc.reverse, c, p.broken⟩
    match c.rest with
    | [] => done
    | ch :: rest =>
      if isBlank ch then
        if p.broken && c.column < indent && ch == '\t' then none
        else plainFrom indent flow fuel c.advance (p.blank ch) acc
      else if isBreak ch then plainFrom indent flow fuel c.advance (p.lineBreak ch) acc
      else if p.broken && !flow && c.column < indent then done
      else if c.column == 0 && atDocumentMark c.rest then done
      else if ch == '#' && (p.broken || !p.blanks.isEmpty) then done
      else if ch == ':' && atGap rest then done
      else if flow && isFlowSign ch then done
      else plainFrom indent flow fuel c.advance .none (ch :: p.text.reverse ++ acc)

def letterEscape? : Char → Option Char
  | '0' => some '\x00'
  | 'a' => some '\x07'
  | 'b' => some '\x08'
  | 't' | '\t' => some '\t'
  | 'n' => some '\n'
  | 'v' => some '\x0b'
  | 'f' => some '\x0c'
  | 'r' => some '\r'
  | 'e' => some '\x1b'
  | ' ' => some ' '
  | '"' => some '"'
  | '\'' => some '\''
  | '\\' => some '\\'
  | 'N' => some '\u0085'
  | '_' => some '\u00a0'
  | 'L' => some '\u2028'
  | 'P' => some '\u2029'
  | _ => none

/-- The number of hexadecimal digits of a numeric escape. -/
def hexLength? : Char → Option Nat
  | 'x' => some 2
  | 'u' => some 4
  | 'U' => some 8
  | _ => none

def hexNumber? (n : Nat) (cs : List Char) : Option Nat :=
  if (cs.take n).length = n then
    (cs.take n).foldlM (fun v c => (hexDigit? c).map (v * 16 + ·)) 0
  else none

/-- The character that an escape stands for, given what follows the backslash, and the length of
the escape without the backslash. -/
def escape? : List Char → Option (Char × Nat)
  | [] => none
  | c :: rest =>
    match letterEscape? c, hexLength? c with
    | some ch, _ => some (ch, 1)
    | none, some n => do
      let code ← hexNumber? n rest
      if code.isValidChar then some (Char.ofNat code, n + 1) else none
    | none, none => none

def quotedFrom (double : Bool) : Nat → Cursor → Pause → List Char → Option ScalarEnd
  | 0, _, _, _ => none
  | fuel + 1, c, p, acc =>
    match c.rest with
    | [] => none
    | ch :: rest =>
      if isBlank ch then quotedFrom double fuel c.advance (p.blank ch) acc
      else if isBreak ch then quotedFrom double fuel c.advance (p.lineBreak ch) acc
      else if c.column == 0 && atDocumentMark c.rest then none
      else
        let acc := p.text.reverse ++ acc
        if !double && ch == '\'' then
          if rest.head? = some '\'' then
            quotedFrom double fuel (c.advanceBy 2) .none ('\'' :: acc)
          else some ⟨acc.reverse, c.advance, false⟩
        else if double && ch == '"' then some ⟨acc.reverse, c.advance, false⟩
        else if double && ch == '\\' then
          if (rest.head?).any isBreak then
            quotedFrom double fuel (c.advanceBy 2) ⟨true, [], [], []⟩ acc
          else match escape? rest with
            | none => none
            | some (e, n) => quotedFrom double fuel (c.advanceBy (n + 1)) .none (e :: acc)
        else quotedFrom double fuel c.advance .none (ch :: acc)

/-- How a scalar in block style treats the line breaks at its end. -/
inductive Chomp where
  | strip | clip | keep
  deriving DecidableEq, Repr

/-- The marks behind the sign of a block scalar: how it ends and by how much it is indented. -/
def blockMarks : List Char → Option (Chomp × Nat × Nat)
  | '+' :: d :: _ => sized .keep d
  | '-' :: d :: _ => sized .strip d
  | ['+'] => some (.keep, 0, 1)
  | ['-'] => some (.strip, 0, 1)
  | '0' :: _ => none
  | d :: '+' :: _ => if d.isDigit then some (.keep, d.toNat - 48, 2) else some (.clip, 0, 0)
  | d :: '-' :: _ => if d.isDigit then some (.strip, d.toNat - 48, 2) else some (.clip, 0, 0)
  | d :: _ => if d.isDigit then some (.clip, d.toNat - 48, 1) else some (.clip, 0, 0)
  | [] => some (.clip, 0, 0)
where
  /-- A mark of the end followed by an indentation. -/
  sized (chomp : Chomp) (d : Char) : Option (Chomp × Nat × Nat) :=
    if d == '0' then none
    else if d.isDigit then some (chomp, d.toNat - 48, 2)
    else some (chomp, 0, 1)

/-- The indentation and the empty lines before the next line of a block scalar. An indentation of
zero is not known yet. -/
structure Margin where
  here : Cursor
  breaks : List Char
  /-- The longest indentation met. -/
  widest : Nat
  deriving Repr

/-- Reads the indentation and the empty lines before the next line of a block scalar. -/
def marginFrom (indent : Nat) : Nat → Cursor → List Char → Nat → Option Margin
  | 0, _, _, _ => none
  | fuel + 1, c, breaks, widest =>
    let spaces := (c.rest.takeWhile (· == ' ')).length
    let c := c.advanceBy (if indent = 0 then spaces else min spaces (indent - c.column))
    let widest := max widest c.column
    match c.rest with
    | [] => some ⟨c, breaks, widest⟩
    | ch :: _ =>
      if (indent = 0 || c.column < indent) && ch == '\t' then none
      else if isBreak ch then marginFrom indent fuel c.advance (ch :: breaks) widest
      else some ⟨c, breaks, widest⟩

structure BlockLines where
  /-- The text, last character first. -/
  text : List Char
  /-- The break at the end of the last line. -/
  first : List Char
  /-- The breaks of the empty lines after it, last first. -/
  more : List Char
  here : Cursor
  deriving Repr

/-- Reads the lines of a block scalar with a known indentation. The flag `indented` tells whether
the line before began with a blank. -/
def blockLines (literal : Bool) (indent : Nat) : Nat → Bool → BlockLines → Option BlockLines
  | 0, _, _ => none
  | fuel + 1, indented, b =>
    match b.here.rest with
    | [] => some b
    | ch :: _ =>
      if b.here.column != indent then some b
      else
        let folded := !literal && !indented && !isBlank ch && b.first = ['\n']
        let text :=
          if folded then if b.more.isEmpty then ' ' :: b.text else b.text else b.first ++ b.text
        let text := b.more ++ text
        let line := b.here.rest.takeWhile fun x => !isBreak x
        let past := b.here.skipLine
        match marginFrom indent fuel past.advance [] 0 with
        | none => none
        | some m =>
          blockLines literal indent fuel (isBlank ch)
            ⟨line.reverse ++ text, past.rest.take 1, m.breaks, m.here⟩

/-- Reads a block scalar from its sign on. `outer` is the indentation of the block around it. -/
def blockScalar (literal : Bool) (outer : Int) (c : Cursor) : Option ScalarEnd := do
  let fuel := c.rest.length + 2
  let c := c.advance
  let (chomp, extra, marks) ← blockMarks c.rest
  let c := (c.advanceBy marks).skipWhile isBlank
  let c := if c.rest.head? = some '#' then c.skipLine else c
  if !(c.rest.head?.all isBreak) then none
  let given := if extra = 0 then 0 else if outer ≥ 0 then outer.toNat + extra else extra
  let m ← marginFrom given fuel c.advance [] 0
  let indent :=
    if given = 0 then max (max m.widest (outer + 1).toNat) 1 else given
  let b ← blockLines literal indent fuel false ⟨[], [], m.breaks, m.here⟩
  let text := if chomp = .strip then b.text else b.first ++ b.text
  let text := if chomp = .keep then b.more ++ text else text
  some ⟨text.reverse, b.here, true⟩

end LuaLint.Yaml
