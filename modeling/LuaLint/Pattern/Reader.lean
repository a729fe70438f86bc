import LuaLint.Pattern.Basic
import LuaLint.Pattern.Category
import LuaLint.Text.Glyph

/-!
# Reading patterns

The written form of patterns: literals, classes in brackets, groups, alternatives, repetitions,
escapes and flags. Groups may be named, but names and captures have no effect on whether a pattern
matches.
-/

namespace LuaLint

/-! ## Faults -/

/-- Why a text is no pattern. Each cause carries the part of the text that shows it. -/
inductive PatternFault where
  /-- A repetition count is too large or its bounds are in the wrong order. -/
  | repeatCount (part : List Char)
  | nestedRepeat (part : List Char)
  | nothingToRepeat (part : List Char)
  | openClass (part : List Char)
  | openGroup (part : List Char)
  | strayParen (part : List Char)
  | trailingBackslash
  /-- The ends of a range are in the wrong order, or a named class does not exist. -/
  | badRange (part : List Char)
  | badEscape (part : List Char)
  | badGroupName (part : List Char)
  | badFlags (part : List Char)
  deriving DecidableEq, Repr

namespace PatternFault

def reason : PatternFault → Bytes
  | .repeatCount _ => "invalid repeat count"
  | .nestedRepeat _ => "invalid nested repetition operator"
  | .nothingToRepeat _ => "missing argument to repetition operator"
  | .openClass _ => "missing closing ]"
  | .openGroup _ => "missing closing )"
  | .strayParen _ => "unexpected )"
  | .trailingBackslash => "trailing backslash at end of expression"
  | .badRange _ => "invalid character class range"
  | .badEscape _ => "invalid escape sequence"
  | .badGroupName _ => "invalid named capture"
  | .badFlags _ => "invalid or unsupported Perl syntax"

def part : PatternFault → List Char
  | .repeatCount part => part
  | .nestedRepeat part => part
  | .nothingToRepeat part => part
  | .openClass part => part
  | .openGroup part => part
  | .strayParen part => part
  | .trailingBackslash => []
  | .badRange part => part
  | .badEscape part => part
  | .badGroupName part => part
  | .badFlags part => part

def message (f : PatternFault) : Bytes :=
  "error parsing regexp: " ++ f.reason ++ ": `" ++ Bytes.ofChars f.part ++ "`"

end PatternFault

namespace Pattern

def consumed (whole rest : List Char) : List Char := whole.take (whole.length - rest.length)

/-! ## Named groups of characters -/

def letterGroup? : Char → Option ClassItem
  | 'd' => some (.group [(48, 57)] false)
  | 'D' => some (.group [(48, 57)] true)
  | 's' => some (.group [(9, 10), (12, 13), (32, 32)] false)
  | 'S' => some (.group [(9, 10), (12, 13), (32, 32)] true)
  | 'w' => some (.group [(48, 57), (65, 90), (95, 95), (97, 122)] false)
  | 'W' => some (.group [(48, 57), (65, 90), (95, 95), (97, 122)] true)
  | _ => none

/-- The groups that a name between colons stands for. -/
def namedRanges? (name : String) : Option (List (Nat × Nat)) :=
  match name with
  | "alnum" => some [(48, 57), (65, 90), (97, 122)]
  | "alpha" => some [(65, 90), (97, 122)]
  | "ascii" => some [(0, 127)]
  | "blank" => some [(9, 9), (32, 32)]
  | "cntrl" => some [(0, 31), (127, 127)]
  | "digit" => some [(48, 57)]
  | "graph" => some [(33, 126)]
  | "lower" => some [(97, 122)]
  | "print" => some [(32, 126)]
  | "punct" => some [(33, 47), (58, 64), (91, 96), (123, 126)]
  | "space" => some [(9, 13), (32, 32)]
  | "upper" => some [(65, 90)]
  | "word" => some [(48, 57), (65, 90), (95, 95), (97, 122)]
  | "xdigit" => some [(48, 57), (65, 70), (97, 102)]
  | _ => none

/-- The text before the first `:]` and the text after it. -/
def cutColon? : List Char → Option (List Char × List Char)
  | [] => none
  | ':' :: ']' :: rest => some ([], rest)
  | c :: rest => (cutColon? rest).map fun (name, after) => (c :: name, after)

def namedGroup? (text : List Char) : Option (Except PatternFault (ClassItem × List Char)) :=
  match text with
  | '[' :: ':' :: inner =>
    (cutColon? inner).map fun (name, rest) =>
      let negated := name.head? == some '^'
      match namedRanges? (String.ofList (if negated then name.drop 1 else name)) with
      | some ranges => .ok (.group ranges negated, rest)
      | none => .error (.badRange (consumed text rest))
  | _ => none

def propertyGroup? (text : List Char) : Option (Except PatternFault (ClassItem × List Char)) :=
  match text with
  | '\\' :: letter :: inner =>
    if letter != 'p' && letter != 'P' then none
    else
      let close (name rest : List Char) : Except PatternFault (ClassItem × List Char) :=
        let negated := (name.head? == some '^') != (letter == 'P')
        let bare := if name.head? == some '^' then name.drop 1 else name
        match Category.ranges? (String.ofList bare) with
        | some ranges => .ok (.group ranges negated, rest)
        | none => .error (.badRange (consumed text rest))
      match inner with
      | '\x7b' :: braced =>
        if braced.contains '\x7d' then
          some (close (braced.takeWhile (· != '\x7d')) ((braced.dropWhile (· != '\x7d')).drop 1))
        else some (.error (.badRange text))
      | c :: rest => some (close [c] rest)
      | [] => some (.error (.badRange text))
  | _ => none

/-! ## Escapes -/

def isOctal (c : Char) : Bool := '0' ≤ c && c ≤ '7'

/-- The value of digits in braces, up to the closing brace, and the text after it. On failure the
text after the offending character is returned. -/
def bracedHex (value count : Nat) : List Char → Except (List Char) (Nat × List Char)
  | [] => .error []
  | '\x7d' :: rest => if count == 0 then .error rest else .ok (value, rest)
  | c :: rest =>
    match hexDigit? c with
    | none => .error rest
    | some d =>
      if value * 16 + d > 0x10FFFF then .error rest
      else bracedHex (value * 16 + d) (count + 1) rest

/-- The value of up to `limit` octal digits, and the text after them. -/
def octal (value : Nat) : Nat → List Char → Nat × List Char
  | 0, text => (value, text)
  | _, [] => (value, [])
  | limit + 1, c :: rest =>
    if isOctal c then octal (value * 8 + (c.toNat - 48)) limit rest else (value, c :: rest)

def letterEscape? : Char → Option Nat
  | 'a' => some 7
  | 'f' => some 12
  | 'n' => some 10
  | 'r' => some 13
  | 't' => some 9
  | 'v' => some 11
  | _ => none

/-- The character that an escape stands for, and the text after it. The text begins with the
backslash. -/
def escape (text : List Char) : Except PatternFault (Nat × List Char) :=
  let bad (rest : List Char) : Except PatternFault (Nat × List Char) :=
    .error (.badEscape (consumed text rest))
  match text.drop 1 with
  | [] => .error .trailingBackslash
  | 'x' :: [] => bad []
  | 'x' :: '\x7b' :: digits =>
    match bracedHex 0 0 digits with
    | .ok found => .ok found
    | .error rest => bad rest
  | 'x' :: _ :: [] => bad []
  | 'x' :: a :: b :: rest =>
    match hexDigit? a, hexDigit? b with
    | some x, some y => .ok (x * 16 + y, rest)
    | _, _ => bad rest
  | c :: rest =>
    if c == '0' || (isOctal c && rest.head?.any isOctal) then
      .ok (octal (c.toNat - 48) 2 rest)
    else match letterEscape? c with
      | some code => .ok (code, rest)
      | none => if c.toNat < 128 && !c.isAlphanum then .ok (c.toNat, rest) else bad rest

/-! ## Classes -/

def classChar (whole text : List Char) : Except PatternFault (Nat × List Char) :=
  match text with
  | [] => .error (.openClass whole)
  | '\\' :: _ => escape text
  | c :: rest => .ok (c.toNat, rest)

def classRange (whole text : List Char) : Except PatternFault (ClassItem × List Char) := do
  let (low, rest) ← classChar whole text
  match rest with
  | '-' :: next :: _ =>
    if next == ']' then return (.range low low, rest)
    let (high, after) ← classChar whole (rest.drop 1)
    if high < low then throw (.badRange (consumed text after))
    return (.range low high, after)
  | _ => return (.range low low, rest)

def classGroup? (text : List Char) : Option (Except PatternFault (ClassItem × List Char)) :=
  match namedGroup? text with
  | some found => some found
  | none =>
    match propertyGroup? text with
    | some found => some found
    | none =>
      match text with
      | '\\' :: c :: rest => (letterGroup? c).map fun item => .ok (item, rest)
      | _ => none

/-- The parts of a class up to its closing bracket, and the text after it. A bracket that comes
first does not close the class. -/
def classItems (whole : List Char) :
    Nat → Bool → List Char → Except PatternFault (List ClassItem × List Char)
  | 0, _, _ => .error (.openClass whole)
  | fuel + 1, first, text =>
    match text, first with
    | ']' :: rest, false => .ok ([], rest)
    | _, _ => do
      let (item, rest) ← (classGroup? text).getD (classRange whole text)
      let (items, after) ← classItems whole fuel false rest
      return (item :: items, after)

def charClass (fold : Bool) (text : List Char) : Except PatternFault (CharClass × List Char) := do
  let inner := text.drop 1
  let negated := inner.head? == some '^'
  let (items, rest) ←
    classItems text (text.length + 1) true (if negated then inner.drop 1 else inner)
  return (⟨items, negated, fold⟩, rest)

/-! ## Repetition counts -/

/-- A decimal number without needless zeros, and the text after it. -/
def number? (text : List Char) : Option (Nat × List Char) :=
  let digits := text.takeWhile Char.isDigit
  if digits.isEmpty || (digits.length > 1 && digits.head? == some '0') then none
  else some (digits.foldl (fun n c => n * 10 + (c.toNat - 48)) 0, text.drop digits.length)

/-- The bounds of a repetition in braces, and the text after it. A text that is no such repetition
stands for itself. -/
def bounds? (text : List Char) : Option (Nat × Option Nat × List Char) := do
  let (least, rest) ← number? (text.drop 1)
  match rest with
  | '\x7d' :: after => some (least, some least, after)
  | ',' :: '\x7d' :: after => some (least, none, after)
  | ',' :: more =>
    let (most, rest) ← number? more
    match rest with
    | '\x7d' :: after => some (least, some most, after)
    | _ => none
  | _ => none

def countsWithin (limit : Nat) : Pattern → Bool
  | .repeated p least most =>
    if most == some 0 then true
    else
      let count := most.getD least
      decide (count ≤ limit) && p.countsWithin (if count == 0 then limit else limit / count)
  | .seq p q => p.countsWithin limit && q.countsWithin limit
  | .alt p q => p.countsWithin limit && q.countsWithin limit
  | _ => true

/-! ## Groups and flags -/

/-- The flags in force at a place of the text. -/
structure Flags where
  fold : Bool
  /-- `^` and `$` match at lines. -/
  multiline : Bool
  /-- `.` matches line feeds. -/
  dotAll : Bool
  deriving DecidableEq, Repr

structure Level where
  saved : Flags
  /-- The alternatives that are complete, the last one first. -/
  branches : List Pattern
  /-- The parts of the current alternative, the last one first. -/
  parts : List Pattern

namespace Level

def branch (l : Level) : Pattern := l.parts.foldl (fun rest p => p.andThen rest) .empty

def pattern (l : Level) : Pattern := l.branches.foldl (fun rest p => .alt p rest) l.branch

def push (l : Level) (p : Pattern) : Level := { l with parts := p :: l.parts }

end Level

structure Reading where
  flags : Flags
  level : Level
  /-- The groups around it, from the inside out. -/
  outer : List Level

namespace Reading

def push (r : Reading) (p : Pattern) : Reading := { r with level := r.level.push p }

def literal (r : Reading) (code : Nat) : Reading := r.push (.one (.single r.flags.fold code))

/-- The state inside a new group with the given flags. -/
def openWith (r : Reading) (flags : Flags) : Reading :=
  ⟨flags, ⟨r.flags, [], []⟩, r.level :: r.outer⟩

def nextBranch (r : Reading) : Reading :=
  { r with level := { r.level with branches := r.level.branch :: r.level.branches, parts := [] } }

/-- The state after `)`, unless no group is open. -/
def close? (r : Reading) : Option Reading :=
  match r.outer with
  | [] => none
  | around :: outer => some ⟨r.level.saved, around.push r.level.pattern, outer⟩

end Reading

def setFlag (on : Bool) (f : Flags) : Char → Option Flags
  | 'i' => some { f with fold := on }
  | 'm' => some { f with multiline := on }
  | 's' => some { f with dotAll := on }
  | 'U' => some f
  | _ => none

/-- Flags up to the `:` or `)` that ends them, with that character and the text after it. `seen`
tells whether a flag has been read since the last minus sign. A failure has the text after the
offending character. -/
def flagLetters (on seen : Bool) (f : Flags) :
    List Char → Except (List Char) (Flags × Char × List Char)
  | [] => .error []
  | c :: rest =>
    if c == ':' || c == ')' then
      if !on && !seen then .error rest else .ok (f, c, rest)
    else if c == '-' then
      if on then flagLetters false false f rest else .error rest
    else match setFlag on f c with
      | some f => flagLetters on true f rest
      | none => .error rest

def isGroupName (name : List Char) : Bool :=
  !name.isEmpty && name.all fun c => c.isAlphanum || c == '_'

/-- A named group, whose name begins after `skip` characters of the text. -/
def namedStart (r : Reading) (text : List Char) (skip : Nat) :
    Except PatternFault (Reading × List Char) :=
  if text.contains '>' then
    let rest := (text.dropWhile (· != '>')).drop 1
    if isGroupName ((text.takeWhile (· != '>')).drop skip) then .ok (r.openWith r.flags, rest)
    else .error (.badGroupName (consumed text rest))
  else .error (.badGroupName text)

/-- What follows `(?`: a named group, a group with flags, or flags for the rest of the group. -/
def groupStart (r : Reading) (text : List Char) : Except PatternFault (Reading × List Char) :=
  match text.drop 2 with
  | 'P' :: '<' :: _ :: _ => namedStart r text 4
  | '<' :: _ :: _ => namedStart r text 3
  | inner =>
    match flagLetters true false r.flags inner with
    | .error rest => .error (.badFlags (consumed text rest))
    | .ok (flags, stop, rest) =>
      if stop == ':' then .ok (r.openWith flags, rest) else .ok ({ r with flags := flags }, rest)

/-! ## The reader -/

/-- A repetition of the last part, with the text from the operator on, the text past it, and the
text from the previous part on if that was a repetition too. -/
def repetition (r : Reading) (least : Nat) (most : Option Nat) (before after : List Char)
    (last : Option (List Char)) : Except PatternFault (Reading × List Char) :=
  let after := if after.head? == some '?' then after.drop 1 else after
  match last, r.level.parts with
  | some whole, _ => .error (.nestedRepeat (consumed whole after))
  | none, [] => .error (.nothingToRepeat (consumed before after))
  | none, p :: parts =>
    let whole := Pattern.repeated p least most
    if (least ≥ 2 || most.any (· ≥ 2)) && !whole.countsWithin 1000 then
      .error (.repeatCount (consumed before after))
    else .ok ({ r with level := { r.level with parts := whole :: parts } }, after)

/-- What a backslash begins outside of brackets. -/
def backslash (r : Reading) (text : List Char) : Except PatternFault (Reading × List Char) :=
  match text.drop 1 with
  | 'A' :: rest => .ok (r.push (.assert .textStart), rest)
  | 'b' :: rest => .ok (r.push (.assert .wordEdge), rest)
  | 'B' :: rest => .ok (r.push (.assert .noWordEdge), rest)
  | 'C' :: rest => .error (.badEscape (consumed text rest))
  | 'z' :: rest => .ok (r.push (.assert .textEnd), rest)
  | 'Q' :: rest => .ok (quoted r rest)
  | _ =>
    match classGroup? text with
    | some found =>
      found.map fun (item, rest) => (r.push (.one ⟨[item], false, r.flags.fold⟩), rest)
    | none => (escape text).map fun (code, rest) => (r.literal code, rest)
where
  /-- Literal characters up to `\E` or the end. -/
  quoted (r : Reading) : List Char → Reading × List Char
    | [] => (r, [])
    | '\\' :: 'E' :: rest => (r, rest)
    | c :: rest => quoted (r.literal c.toNat) rest

/-- One step of the reader: the state after it, the text that is left, and whether it was a
repetition. -/
def step (whole : List Char) (r : Reading) (last : Option (List Char)) (c : Char)
    (rest : List Char) : Except PatternFault (Reading × List Char × Bool) :=
  let text := c :: rest
  let plain (r : Reading) : Except PatternFault (Reading × List Char × Bool) := .ok (r, rest, false)
  let part (found : Except PatternFault (Reading × List Char)) :
      Except PatternFault (Reading × List Char × Bool) :=
    found.map fun (r, rest) => (r, rest, false)
  let again (least : Nat) (most : Option Nat) (after : List Char) :
      Except PatternFault (Reading × List Char × Bool) :=
    (repetition r least most text after last).map fun (r, rest) => (r, rest, true)
  match c with
  | '(' => if rest.head? == some '?' then part (groupStart r text) else plain (r.openWith r.flags)
  | '|' => plain r.nextBranch
  | ')' =>
    match r.close? with
    | some r => plain r
    | none => .error (.strayParen whole)
  | '^' => plain (r.push (.assert (if r.flags.multiline then .lineStart else .textStart)))
  | '$' => plain (r.push (.assert (if r.flags.multiline then .lineEnd else .textEnd)))
  | '.' => plain (r.push (.one (if r.flags.dotAll then .any else .anyInLine)))
  | '[' => part ((charClass r.flags.fold text).map fun (k, rest) => (r.push (.one k), rest))
  | '*' => again 0 none rest
  | '+' => again 1 none rest
  | '?' => again 0 (some 1) rest
  | '\x7b' =>
    match bounds? text with
    | none => plain (r.literal c.toNat)
    | some (least, most, after) =>
      if least > 1000 || most.any (fun m => m > 1000 || m < least) then
        .error (.repeatCount (consumed text after))
      else again least most after
  | '\\' => part (backslash r text)
  | _ => plain (r.literal c.toNat)

/-- Reads a text to its end. Every step consumes a character, so the length of the text is enough
fuel. -/
def readFrom (whole : List Char) :
    Nat → Reading → Option (List Char) → List Char → Except PatternFault Pattern
  | _, r, _, [] => if r.outer.isEmpty then .ok r.level.pattern else .error (.openGroup whole)
  | 0, _, _, _ => .error (.openGroup whole)
  | fuel + 1, r, last, c :: rest => do
    let (r, left, isRepeat) ← step whole r last c rest
    readFrom whole fuel r (if isRepeat then some (c :: rest) else none) left

def read (text : List Char) : Except PatternFault Pattern :=
  let flags : Flags := ⟨false, false, false⟩
  readFrom text text.length ⟨flags, ⟨flags, [], []⟩, []⟩ none text

end Pattern

end LuaLint
