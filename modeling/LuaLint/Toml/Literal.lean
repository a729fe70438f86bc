import LuaLint.Text.Glyph
import LuaLint.Config.Value

/-!
# TOML literals

The values of TOML documents that are not collections: strings in four forms, numbers, truth values
and points in time. Every reader takes the text from the literal on and returns the value with the
text after it.
-/

namespace LuaLint.Toml

/-! ## Strings -/

/-- A character that may stand in a string or a comment. -/
def isAllowed (c : Char) : Bool := c == '\t' || (c.toNat ≥ 32 && c.toNat != 127)

def codePoint? (n : Nat) (cs : List Char) : Option Char := do
  if (cs.take n).length < n then none
  let code ← (cs.take n).foldlM (fun v c => (hexDigit? c).map (v * 16 + ·)) 0
  if code.isValidChar then some (Char.ofNat code) else none

/-- The character that an escape stands for and the length of the escape without the backslash. -/
def escape? : List Char → Option (Char × Nat)
  | 'b' :: _ => some ('\x08', 1)
  | 't' :: _ => some ('\t', 1)
  | 'n' :: _ => some ('\n', 1)
  | 'f' :: _ => some ('\x0c', 1)
  | 'r' :: _ => some ('\r', 1)
  | '"' :: _ => some ('"', 1)
  | '\\' :: _ => some ('\\', 1)
  | 'u' :: rest => (codePoint? 4 rest).map fun c => (c, 5)
  | 'U' :: rest => (codePoint? 8 rest).map fun c => (c, 9)
  | _ => none

/-- A text with its carriage returns before line feeds left out. -/
def dropReturns : List Char → List Char
  | '\r' :: '\n' :: rest => '\n' :: dropReturns rest
  | c :: rest => c :: dropReturns rest
  | [] => []

/-- Reads up to the closing quote of a string on one line. The first argument bounds the number of
characters. -/
def basicFrom : Nat → List Char → List Char → Option (List Char × List Char)
  | 0, _, _ => none
  | fuel + 1, cs, acc =>
    match cs with
    | '"' :: rest => some (acc.reverse, rest)
    | '\\' :: rest =>
      (escape? rest).bind fun (c, n) => basicFrom fuel (rest.drop n) (c :: acc)
    | c :: rest => if isAllowed c then basicFrom fuel rest (c :: acc) else none
    | [] => none

/-- Reads up to the closing apostrophe of a string on one line. -/
def literalFrom : List Char → List Char → Option (List Char × List Char)
  | '\'' :: rest, acc => some (acc.reverse, rest)
  | c :: rest, acc => if isAllowed c then literalFrom rest (c :: acc) else none
  | [], _ => none

/-- The number of `quote` characters at the beginning of a text, five at most. -/
def quoteRun (quote : Char) (cs : List Char) : Nat := ((cs.take 5).takeWhile (· == quote)).length

def endsLine (cs : List Char) : Bool :=
  ((cs.dropWhile fun c => c == ' ' || c == '\t').head?).any (· == '\n')

/-- Reads up to the three quotes that close a string of several lines. -/
def manyFrom (quote : Char) : Nat → List Char → List Char → Option (List Char × List Char)
  | 0, _, _ => none
  | fuel + 1, cs, acc =>
    let run := quoteRun quote cs
    if run ≥ 3 then some (acc.reverse ++ List.replicate (run - 3) quote, cs.drop run)
    else match cs with
      | [] => none
      | c :: rest =>
        if quote == '"' && c == '\\' then
          if endsLine rest then
            manyFrom quote fuel (rest.dropWhile fun x => x == ' ' || x == '\t' || x == '\n') acc
          else (escape? rest).bind fun (e, n) => manyFrom quote fuel (rest.drop n) (e :: acc)
        else if isAllowed c || c == '\n' then manyFrom quote fuel rest (c :: acc)
        else none

/-- Reads a string in any of its forms. A line feed right after three quotes is left out. -/
def string? (cs : List Char) : Option (List Char × List Char) :=
  let fuel := cs.length + 1
  let body (rest : List Char) : List Char := if rest.head? = some '\n' then rest.tail else rest
  match cs with
  | '"' :: '"' :: '"' :: rest => manyFrom '"' fuel (body rest) []
  | '\'' :: '\'' :: '\'' :: rest => manyFrom '\'' fuel (body rest) []
  | '"' :: rest => basicFrom fuel rest []
  | '\'' :: rest => literalFrom rest []
  | _ => none

/-! ## Numbers -/

/-- The digits of a text in which single underscores stand between digits. -/
def separated? : List Char → Option (List Char)
  | c :: '_' :: d :: rest =>
    if d == '_' then none else (separated? (d :: rest)).map (c :: ·)
  | [_, '_'] => none
  | c :: rest => (separated? rest).map (c :: ·)
  | [] => some []

/-- The number that digits with underscores between them denote in a base. -/
def digits? (base : Nat) (cs : List Char) : Option Nat := do
  if cs.head? = some '_' then none
  let ds ← separated? cs
  if ds.isEmpty then none
  else ds.foldlM (fun n c =>
    match hexDigit? c with
    | some v => if v < base then some (n * base + v) else none
    | none => none) 0

/-- Whether digits begin with a zero that does not belong there. -/
def leadingZero : List Char → Bool
  | '0' :: _ :: _ => true
  | _ => false

def integer? (cs : List Char) : Option Int :=
  let limit : Int := Nat.pow 2 63
  let within (n : Int) : Option Int := if -limit ≤ n && n < limit then some n else none
  match cs with
  | '0' :: 'x' :: rest => (digits? 16 rest).bind fun n => within n
  | '0' :: 'o' :: rest => (digits? 8 rest).bind fun n => within n
  | '0' :: 'b' :: rest => (digits? 2 rest).bind fun n => within n
  | '-' :: rest => if leadingZero rest then none else (digits? 10 rest).bind fun n => within (-n)
  | '+' :: rest => if leadingZero rest then none else (digits? 10 rest).bind fun n => within n
  | cs => if leadingZero cs then none else (digits? 10 cs).bind fun n => within n

/-- The exponent behind the letter `e`, with its sign. -/
def exponent? : List Char → Option Int
  | '-' :: rest => (digits? 10 rest).map fun n => -(n : Int)
  | '+' :: rest => (digits? 10 rest).map fun n => (n : Int)
  | rest => (digits? 10 rest).map fun n => (n : Int)

def fraction? (negative : Bool) (cs : List Char) : Option Binary64 := do
  let isMark (c : Char) : Bool := c == 'e' || c == 'E'
  let mantissa := cs.takeWhile fun c => !isMark c
  let tail := cs.drop mantissa.length
  let e ← if tail.isEmpty then some 0 else exponent? tail.tail
  let whole := mantissa.takeWhile (· != '.')
  let part := mantissa.drop whole.length
  if leadingZero whole then none
  let w ← digits? 10 whole
  if part.isEmpty then
    if tail.isEmpty then none else some (.ofDecimal negative w e)
  else
    let p ← digits? 10 part.tail
    let places := (part.tail.filter (· != '_')).length
    some (.ofDecimal negative (w * Nat.pow 10 places + p) (e - places))

def float? (cs : List Char) : Option Binary64 :=
  let negative := cs.head? = some '-'
  let body := if cs.head? = some '-' || cs.head? = some '+' then cs.tail else cs
  if body = ['i', 'n', 'f'] then some (.infinity negative)
  else if body = ['n', 'a', 'n'] then some .nan
  else fraction? negative body

/-! ## Points in time -/

/-- Exactly `n` digits within bounds, and what follows them. -/
def fixed? (n low high : Nat) (cs : List Char) : Option (Nat × List Char) := do
  let ds := cs.take n
  if ds.length < n || !ds.all Char.isDigit then none
  let v := ds.foldl (fun v c => v * 10 + (c.toNat - 48)) 0
  if low ≤ v && v ≤ high then some (v, cs.drop n) else none

def after? (c : Char) (cs : List Char) : Option (List Char) :=
  if cs.head? = some c then some cs.tail else none

def daysIn (year month : Nat) : Nat :=
  if month = 2 then
    if year % 4 = 0 && (year % 100 != 0 || year % 400 = 0) then 29 else 28
  else if [4, 6, 9, 11].contains month then 30
  else 31

def date? (cs : List Char) : Option (List Char × List Char) := do
  let (year, rest) ← fixed? 4 0 9999 cs
  let rest ← after? '-' rest
  let (month, rest) ← fixed? 2 1 12 rest
  let rest ← after? '-' rest
  let (_, rest) ← fixed? 2 1 (daysIn year month) rest
  some (cs.take 10, rest)

/-- A time of day without zeros at the end of its fraction, and what follows it. -/
def clock? (cs : List Char) : Option (List Char × List Char) := do
  let (_, rest) ← fixed? 2 0 23 cs
  let rest ← after? ':' rest
  let (_, rest) ← fixed? 2 0 59 rest
  let rest ← after? ':' rest
  let (_, rest) ← fixed? 2 0 59 rest
  match rest with
  | '.' :: more =>
    let ds := more.takeWhile Char.isDigit
    if ds.isEmpty then none
    else
      let kept := ((ds.take 9).reverse.dropWhile (· == '0')).reverse
      some (cs.take 8 ++ (if kept.isEmpty then [] else '.' :: kept), more.drop ds.length)
  | rest => some (cs.take 8, rest)

/-- How the offset from universal time is shown. -/
def zone? (cs : List Char) : Option (List Char) :=
  match cs with
  | ['Z'] | ['z'] => some "+0000 UTC".toList
  | sign :: rest => do
    if sign != '+' && sign != '-' then none
    let (h, rest') ← fixed? 2 0 24 rest
    let rest' ← after? ':' rest'
    let (m, rest') ← fixed? 2 0 60 rest'
    if !rest'.isEmpty then none
    let offset := sign :: rest.take 2 ++ (rest.drop 3).take 2
    some (if h = 0 && m = 0 then "+0000 UTC".toList else offset ++ ' ' :: offset)
  | [] => none

/-- A point in time as it is shown. A part that is not given is shown as the earliest one. -/
def moment? (cs : List Char) : Option (List Char) :=
  let midnight := "00:00:00".toList
  match date? cs with
  | some (date, []) => some (date ++ ' ' :: midnight ++ " +0000 date-local".toList)
  | some (date, mark :: rest) => do
    if mark != 'T' && mark != 't' && mark != ' ' then none
    let (clock, tail) ← clock? rest
    if tail.isEmpty then some (date ++ ' ' :: clock ++ " +0000 datetime-local".toList)
    else (zone? tail).map fun zone => date ++ ' ' :: clock ++ ' ' :: zone
  | none => do
    let (clock, tail) ← clock? cs
    if !tail.isEmpty then none
    else some ("0000-01-01 ".toList ++ clock ++ " +0000 time-local".toList)

/-! ## Literals without quotes -/

def isBareChar (c : Char) : Bool :=
  c.isAlphanum || c == '_' || c == '-' || c == '+' || c == '.' || c == ':'

/-- The text of a literal without quotes. A date may be followed by a space and a time. -/
def bareText (cs : List Char) : List Char :=
  let word := cs.takeWhile isBareChar
  match date? word, cs.drop word.length with
  | some (_, []), ' ' :: d :: rest =>
    if d.isDigit then word ++ ' ' :: (d :: rest).takeWhile isBareChar else word
  | _, _ => word

def bareValue? (word : List Char) : Option ConfigValue :=
  if word = "true".toList then some (.bool true)
  else if word = "false".toList then some (.bool false)
  else
    ((integer? word).map .int).or (((float? word).map .float).or
      ((moment? word).map fun shown => .moment (Bytes.ofChars shown)))

def bare? (cs : List Char) : Option (ConfigValue × List Char) :=
  let word := bareText cs
  (bareValue? word).map fun v => (v, cs.drop word.length)

end LuaLint.Toml
