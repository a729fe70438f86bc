import LuaLint.Json.Value

/-!
# Reading JSON

The value that a text in the JSON format denotes. A text that breaks the rules of the format denotes
none.
-/

namespace LuaLint.JsonValue

/-! ## Pieces -/

def skipBlanks (cs : List Char) : List Char :=
  cs.dropWhile fun c => c == ' ' || c == '\t' || c == '\n' || c == '\r'

/-- The number of four hexadecimal digits with the rest. -/
def unit? : List Char → Option (Nat × List Char)
  | a :: b :: c :: d :: rest => do
    let n ← [a, b, c, d].foldlM (fun n c => (hexDigit? c).map (n * 16 + ·)) 0
    some (n, rest)
  | _ => none

/-- The character of a unit with the rest. Two halves of a pair make one character, and a half alone
is shown as U+FFFD. -/
def unitChar (unit : Nat) (rest : List Char) : Char × List Char :=
  if 0xD800 ≤ unit && unit < 0xDC00 then
    match rest with
    | '\\' :: 'u' :: more =>
      match unit? more with
      | some (low, more) =>
        if 0xDC00 ≤ low && low < 0xE000 then
          (Char.ofNat (0x10000 + (unit - 0xD800) * 0x400 + (low - 0xDC00)), more)
        else ('�', rest)
      | none => ('�', rest)
    | _ => ('�', rest)
  else if 0xDC00 ≤ unit && unit < 0xE000 then ('�', rest)
  else (Char.ofNat unit, rest)

/-- The characters up to the closing quote with the rest. -/
def textBody? : Nat → List Char → List Char → Option (List Char × List Char)
  | 0, _, _ => none
  | _ + 1, _, [] => none
  | _ + 1, acc, '"' :: rest => some (acc.reverse, rest)
  | fuel + 1, acc, '\\' :: 'u' :: rest =>
    match unit? rest with
    | none => none
    | some (unit, rest) =>
      let (c, rest) := unitChar unit rest
      textBody? fuel (c :: acc) rest
  | fuel + 1, acc, '\\' :: c :: rest =>
    match c with
    | '"' | '\\' | '/' => textBody? fuel (c :: acc) rest
    | 'b' => textBody? fuel ('\x08' :: acc) rest
    | 'f' => textBody? fuel ('\x0c' :: acc) rest
    | 'n' => textBody? fuel ('\n' :: acc) rest
    | 'r' => textBody? fuel ('\r' :: acc) rest
    | 't' => textBody? fuel ('\t' :: acc) rest
    | _ => none
  | fuel + 1, acc, c :: rest => if c.toNat < 32 then none else textBody? fuel (c :: acc) rest

/-- The digits at the beginning of a text with the rest. There must be one. -/
def digits? (cs : List Char) : Option (List Char × List Char) :=
  let ds := cs.takeWhile Char.isDigit
  if ds.isEmpty then none else some (ds, cs.dropWhile Char.isDigit)

def digitsNat (ds : List Char) : Nat := ds.foldl (fun n d => n * 10 + (d.toNat - 48)) 0

/-- An exponent with the rest. Where there is none it is zero. -/
def exponent? : List Char → Option (Int × List Char)
  | 'e' :: rest | 'E' :: rest =>
    match rest with
    | '-' :: rest => (digits? rest).map fun (ds, rest) => (-(digitsNat ds : Int), rest)
    | '+' :: rest => (digits? rest).map fun (ds, rest) => ((digitsNat ds : Int), rest)
    | _ => (digits? rest).map fun (ds, rest) => ((digitsNat ds : Int), rest)
  | cs => some (0, cs)

/-- A number with the rest. An exponent of more than a thousand is not read. -/
def number? (cs : List Char) : Option (JsonValue × List Char) := do
  let (negative, cs) := match cs with
    | '-' :: rest => (true, rest)
    | _ => (false, cs)
  let (whole, rest) ← digits? cs
  if whole.length > 1 && whole.head? == some '0' then none
  let (part, rest) ← match rest with
    | '.' :: rest => digits? rest
    | _ => some ([], rest)
  let (e, rest) ← exponent? rest
  if e.natAbs > 1000 then none
  let n : Int := digitsNat (whole ++ part)
  let n := if negative then -n else n
  let scale : Int := part.length - e
  if scale ≥ 0 then some (.number n scale.toNat, rest)
  else some (.number (n * Nat.pow 10 (-scale).toNat) 0, rest)

/-! ## Values -/

mutual

/-- A value with the rest, with a bound for how often values are entered. -/
def value? : Nat → List Char → Option (JsonValue × List Char)
  | 0, _ => none
  | fuel + 1, cs =>
    match skipBlanks cs with
    | 'n' :: 'u' :: 'l' :: 'l' :: rest => some (.null, rest)
    | 't' :: 'r' :: 'u' :: 'e' :: rest => some (.bool true, rest)
    | 'f' :: 'a' :: 'l' :: 's' :: 'e' :: rest => some (.bool false, rest)
    | '"' :: rest => (textBody? (rest.length + 1) [] rest).map fun (cs, rest) =>
        (.text (Bytes.ofChars cs), rest)
    | '[' :: rest =>
      match skipBlanks rest with
      | ']' :: rest => some (.list [], rest)
      | rest => (items? fuel rest).map fun (items, rest) => (.list items, rest)
    | '\x7b' :: rest =>
      match skipBlanks rest with
      | '\x7d' :: rest => some (.object [], rest)
      | rest => (members? fuel rest).map fun (members, rest) => (.object members, rest)
    | cs => number? cs

def items? : Nat → List Char → Option (List JsonValue × List Char)
  | 0, _ => none
  | fuel + 1, cs =>
    match value? fuel cs with
    | none => none
    | some (v, rest) =>
      match skipBlanks rest with
      | ',' :: rest => (items? fuel rest).map fun (items, rest) => (v :: items, rest)
      | ']' :: rest => some ([v], rest)
      | _ => none

def members? : Nat → List Char → Option (List (Bytes × JsonValue) × List Char)
  | 0, _ => none
  | fuel + 1, cs =>
    match skipBlanks cs with
    | '"' :: rest =>
      match textBody? (rest.length + 1) [] rest with
      | none => none
      | some (name, rest) =>
        match skipBlanks rest with
        | ':' :: rest =>
          match value? fuel rest with
          | none => none
          | some (v, rest) =>
            match skipBlanks rest with
            | ',' :: rest => (members? fuel rest).map fun (members, rest) =>
                ((Bytes.ofChars name, v) :: members, rest)
            | '\x7d' :: rest => some ([(Bytes.ofChars name, v)], rest)
            | _ => none
        | _ => none
    | _ => none

end

def read? (text : Bytes) : Option JsonValue :=
  let cs := text.chars
  match value? (2 * cs.length + 1) cs with
  | some (v, rest) => if (skipBlanks rest).isEmpty then some v else none
  | none => none

end LuaLint.JsonValue
