import LuaLint.Yaml.Node

/-!
# Writing YAML

A tree of nodes as text. Mappings and lists are indented by four columns, a list of strings in
brackets stays on its line, and a scalar is written in the plainest style in which it reads as what
it is.
-/

namespace LuaLint.Yaml

/-! ## Characters -/

def breaksLine (c : Char) : Bool := ['\n', '\r', '\u0085', '\u2028', '\u2029'].contains c

def isPrinted (c : Char) : Bool :=
  let n := c.toNat
  n == 10 || (32 ≤ n && n ≤ 126) || (0xA0 ≤ n && n ≤ 0xFFFD && n != 0xFEFF)

def spaces (n : Nat) : Bytes := List.replicate n 32

/-! ## Styles -/

inductive Style where
  | plain | single | double | literal
  deriving DecidableEq, Repr

/-- What decides in which styles a text can be written. -/
structure Traits where
  flowSigns : Bool
  blockSigns : Bool
  multiline : Bool
  special : Bool
  tabs : Bool
  /-- It begins or ends with a space or a line break. -/
  looseEnds : Bool
  trailingSpace : Bool
  /-- It has a line that begins with a space. -/
  breakSpace : Bool
  /-- It has a line that ends with a space. -/
  spaceBreak : Bool
  deriving DecidableEq, Repr

/-- Whether a character after the first one is a sign, given the character before it and what
follows: inside and outside of brackets. -/
def innerSign (before c : Char) (rest : List Char) : Bool × Bool :=
  let spaced := (rest.head?).all fun x => x == ' ' || x == '\t'
  if [',', '?', '[', ']', '\x7b', '\x7d'].contains c then (true, false)
  else if c == ':' then (true, spaced)
  else if c == '#' then
    let separate := before == ' ' || before == '\t' || breaksLine before
    (separate, separate)
  else (false, false)

/-- Whether the first character is a sign: inside and outside of brackets. -/
def firstSign (c : Char) (rest : List Char) : Bool × Bool :=
  let spaced := (rest.head?).all fun x => x == ' ' || x == '\t'
  if ['#', ',', '[', ']', '\x7b', '\x7d', '&', '*', '!', '|', '>', '\'', '"', '%', '@',
      '\x60'].contains c then (true, true)
  else if c == '?' || c == ':' then (true, spaced)
  else if c == '-' then (spaced, spaced)
  else (false, false)

def innerSigns (before : Char) : List Char → Bool × Bool
  | [] => (false, false)
  | c :: rest =>
    let here := innerSign before c rest
    let later := innerSigns c rest
    (here.1 || later.1, here.2 || later.2)

def adjacent (p q : Char → Bool) : List Char → Bool
  | a :: b :: rest => (p a && q b) || adjacent p q (b :: rest)
  | _ => false

def traits (cs : List Char) : Traits :=
  let isSpace (c : Char) : Bool := c == ' '
  let loose (c : Char) : Bool := isSpace c || breaksLine c
  let mark := cs.take 3 = ['-', '-', '-'] || cs.take 3 = ['.', '.', '.']
  let signs :=
    match cs with
    | [] => (false, false)
    | c :: rest =>
      let first := firstSign c rest
      let later := innerSigns c rest
      (first.1 || later.1, first.2 || later.2)
  { flowSigns := mark || signs.1
    blockSigns := mark || signs.2
    multiline := cs.any breaksLine
    special := cs.any fun c => c != '\t' && !isPrinted c
    tabs := cs.contains '\t'
    looseEnds := cs.head?.any loose || cs.getLast?.any loose
    trailingSpace := cs.getLast?.any isSpace
    breakSpace := adjacent breaksLine isSpace cs
    spaceBreak := adjacent isSpace breaksLine cs }

namespace Traits

def allowsPlain (t : Traits) (flow : Bool) : Bool :=
  !(t.looseEnds || t.breakSpace || t.spaceBreak || t.tabs || t.special || t.multiline ||
    if flow then t.flowSigns else t.blockSigns)

def allowsSingle (t : Traits) : Bool := !(t.breakSpace || t.spaceBreak || t.tabs || t.special)

def allowsBlock (t : Traits) : Bool := !(t.trailingSpace || t.spaceBreak || t.special)

end Traits

/-- The style of a scalar inside or outside of brackets, and as a key that has to fit on one line or
not. A text that would not read as a string without quotes is put in double quotes. -/
def style (flow key : Bool) (tag : Tag) (value : Bytes) : Style :=
  let t := traits value.chars
  if t.multiline && key then .double
  else if value.contains 10 then if t.allowsBlock && !flow then .literal else .double
  else if tag == .str && Tag.ofPlain value != .str then .double
  else if t.allowsPlain flow then .plain
  else if t.allowsSingle then .single
  else .double

/-! ## Scalars -/

/-- A text in single quotes. After a line break the text goes on in the column `indent`. -/
def singleQuoted (indent : Nat) : Bool → List Char → Bytes
  | _, [] => "'"
  | broken, c :: rest =>
    let shown : Bytes := if c == '\'' then "''" else Bytes.ofChar c
    if breaksLine c then Bytes.ofChar c ++ singleQuoted indent true rest
    else (if broken then spaces indent else []) ++ shown ++ singleQuoted indent false rest

def escapeLetter? (c : Char) : Option Char :=
  (List.find? (fun entry => entry.1 == c)
    [('\x00', '0'), ('\x07', 'a'), ('\x08', 'b'), ('\t', 't'), ('\n', 'n'), ('\x0b', 'v'),
      ('\x0c', 'f'), ('\r', 'r'), ('\x1b', 'e'), ('"', '"'), ('\\', '\\'), ('\u0085', 'N'),
      ('\u00a0', '_'), ('\u2028', 'L'), ('\u2029', 'P')]).map Prod.snd

/-- A code in hexadecimal with capital letters and exactly `width` digits. -/
def hexCode (width code : Nat) : Bytes :=
  let digits := (Nat.toDigits 16 code).map Char.toUpper
  (List.replicate (width - digits.length) '0' ++ digits).map Bytes.byte

def escaped (c : Char) : Bytes :=
  if isPrinted c && !breaksLine c && c != '"' && c != '\\' then Bytes.ofChar c
  else match escapeLetter? c with
    | some letter => "\\" ++ Bytes.ofChar letter
    | none =>
      let n := c.toNat
      if n ≤ 0xFF then "\\x" ++ hexCode 2 n
      else if n ≤ 0xFFFF then "\\u" ++ hexCode 4 n
      else "\\U" ++ hexCode 8 n

def doubleQuoted (cs : List Char) : Bytes := "\"" ++ cs.flatMap escaped ++ "\""

/-- The marks behind the sign of a block of lines: its indentation when the text begins with a
space or a line break, and how it ends. -/
def literalMarks (cs : List Char) : Bytes :=
  let indented : Bytes := if (cs.head?).any fun c => c == ' ' || breaksLine c then "4" else []
  let ending : Bytes := match cs.reverse with
    | [] => "-"
    | [c] => if breaksLine c then "+" else "-"
    | c :: d :: _ => if !breaksLine c then "-" else if breaksLine d then "+" else []
  indented ++ ending

/-- The lines of a block in the column `indent`. The flags tell whether anything has been written
and whether a line begins. -/
def literalLines (indent : Nat) : Bool → Bool → List Char → Bytes
  | _, fresh, [] => if fresh then [] else "\n"
  | started, fresh, c :: rest =>
    if breaksLine c then Bytes.ofChar c ++ literalLines indent true true rest
    else
      (if fresh then (if started then [] else "\n") ++ spaces indent else []) ++ Bytes.ofChar c ++
        literalLines indent true false rest

/-- A scalar on a line of its own or at the end of one, with the line feed after it. Further lines
stand in the column `indent`. -/
def scalarLine (indent : Nat) (flow key : Bool) (tag : Tag) (value : Bytes) : Bytes :=
  let cs := value.chars
  match style flow key tag value with
  | .plain => value ++ "\n"
  | .single => "'" ++ singleQuoted indent false cs ++ "\n"
  | .double => doubleQuoted cs ++ "\n"
  | .literal => "|" ++ literalMarks cs ++ literalLines indent false true cs

/-- A scalar without the line feed after it. -/
def inlineScalar (indent : Nat) (flow key : Bool) (tag : Tag) (value : Bytes) : Bytes :=
  (scalarLine indent flow key tag value).dropLast

/-! ## Nodes -/

/-- The column of what is nested in a block in the column `indent`. -/
def deeper (indent : Nat) : Nat := 4 * ((indent + 4) / 4)

def isShortKey (value : Bytes) : Bool := value.length ≤ 128 && !(value.chars.any breaksLine)

/-- The strings of a list in brackets. -/
def flowItem (indent : Nat) : Node → Bytes
  | .scalar _ tag value => inlineScalar indent true false tag value
  | _ => "null"

/-- A list in brackets, nested in a block in the column `indent`. -/
def flowList (indent : Nat) (items : List Node) : Bytes :=
  "[" ++ Bytes.join ", " (items.map (flowItem (deeper (deeper indent)))) ++ "]\n"

/-- A key with its colon, in a block in the column `indent`. A long key is marked by a question
mark, and the colon then stands on a line of its own. -/
def keyText (indent : Nat) : Node → Bytes
  | .scalar _ tag value =>
    if isShortKey value then inlineScalar (deeper indent) false true tag value ++ ":"
    else "? " ++ scalarLine (deeper indent) false false tag value ++ spaces indent ++ ":"
  | _ => "? null\n" ++ spaces indent ++ ":"

/-- What stands between the colon of a key and a nested block. -/
def blockGap (indent : Nat) : Node → Bytes
  | .scalar _ _ value =>
    if isShortKey value then "\n" ++ spaces (deeper indent) else spaces (deeper indent - indent - 1)
  | _ => spaces (deeper indent - indent - 1)

mutual

/-- A node behind the colon of a key, in a block in the column `indent`. -/
def valueText (indent : Nat) (key : Node) : Node → Bytes
  | .scalar _ tag value => " " ++ scalarLine (deeper indent) false false tag value
  | .sequence _ flow items =>
    if flow || items.isEmpty then " " ++ flowList indent items
    else blockGap indent key ++ itemsText (deeper indent) items
  | .mapping _ entries =>
    if entries.isEmpty then " \x7b\x7d\n"
    else blockGap indent key ++ entriesText (deeper indent) entries
  | .alias _ _ => " null\n"

/-- The items of a list, of which the first begins in the column `indent`. -/
def itemsText (indent : Nat) : List Node → Bytes
  | [] => []
  | n :: rest =>
    "- " ++ itemText (indent + 2) n ++ (if rest.isEmpty then [] else spaces indent) ++
      itemsText indent rest

def itemText (indent : Nat) : Node → Bytes
  | .scalar _ tag value => scalarLine indent false false tag value
  | .sequence _ flow items =>
    if flow || items.isEmpty then flowList indent items else itemsText indent items
  | .mapping _ entries => if entries.isEmpty then "\x7b\x7d\n" else entriesText indent entries
  | .alias _ _ => "null\n"

/-- The entries of a mapping, of which the first begins in the column `indent`. -/
def entriesText (indent : Nat) : List (Node × Node) → Bytes
  | [] => []
  | (k, v) :: rest =>
    keyText indent k ++ valueText indent k v ++ (if rest.isEmpty then [] else spaces indent) ++
      entriesText indent rest

end

def render (n : Node) : Bytes := itemText 0 n

end LuaLint.Yaml
