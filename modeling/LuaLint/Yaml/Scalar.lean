import LuaLint.Text.Glyph

/-!
# Scalar tags

A plain scalar of a YAML document stands for a null, a boolean, a number, a point in time or a
string, depending on how it is spelled. The same rule tells the writer which strings need quotes.
-/

namespace LuaLint.Yaml

/-! ## Tags -/

inductive Tag where
  | null | bool | int | float | timestamp | merge | str | binary
  | other (name : Bytes)
  deriving DecidableEq, Repr, Inhabited

def Tag.ofName (name : Bytes) : Tag :=
  let known : List (Bytes × Tag) :=
    [("!!null", .null), ("!!bool", .bool), ("!!int", .int), ("!!float", .float),
      ("!!timestamp", .timestamp), ("!!merge", .merge), ("!!str", .str), ("!!binary", .binary)]
  ((known.find? fun entry => entry.1 == name).map Prod.snd).getD (.other name)

/-- The tag written in full, with the common start of the tags of the format shortened. -/
def Tag.ofFull (name : Bytes) : Tag :=
  match name.after? "tag:yaml.org,2002:" with
  | some rest => .ofName ("!!" ++ rest)
  | none => .ofName name

/-! ## Numbers -/

def isDigit (b : UInt8) : Bool := 48 ≤ b && b ≤ 57

def digit? (base : Nat) (b : UInt8) : Option Nat :=
  let n :=
    if isDigit b then b.toNat - 48
    else if 97 ≤ b && b ≤ 102 then b.toNat - 87
    else if 65 ≤ b && b ≤ 70 then b.toNat - 55
    else 16
  if n < base then some n else none

/-- The number that digits denote, of which there must be at least one. -/
def natural? (base : Nat) (digits : Bytes) : Option Nat :=
  if digits.isEmpty then none
  else digits.foldlM (fun n b => (digit? base b).map (n * base + ·)) 0

/-- The number denoted by digits behind the usual mark of their base. A leading zero marks octal. -/
def unsigned? : Bytes → Option Nat
  | 48 :: 120 :: rest | 48 :: 88 :: rest => natural? 16 rest
  | 48 :: 98 :: rest | 48 :: 66 :: rest => natural? 2 rest
  | 48 :: 111 :: rest | 48 :: 79 :: rest => natural? 8 rest
  | 48 :: b :: rest => natural? 8 (b :: rest)
  | s => natural? 10 s

/-- Whether a text denotes an integer of at most 64 bits. A sign takes one of them. -/
def isInteger : Bytes → Bool
  | 45 :: rest => (unsigned? rest).any fun n => n ≤ Nat.pow 2 63
  | 43 :: rest => (unsigned? rest).any fun n => n < Nat.pow 2 63
  | s => (unsigned? s).any fun n => n < Nat.pow 2 64

/-- A decimal fraction taken apart: its digits, how many of them follow the point, and the exponent
of ten. -/
structure Fraction where
  /-- The digits before and after the point. -/
  digits : Bytes
  /-- The number of digits after the point. -/
  places : Nat
  exponent : Int
  deriving DecidableEq, Repr

def unsign : Bytes → Bytes
  | 43 :: rest | 45 :: rest => rest
  | s => s

def exponent? : Bytes → Option Int
  | [] => some 0
  | 101 :: rest | 69 :: rest =>
    (natural? 10 (unsign rest)).map fun n => if Bytes.startsWith rest "-" then -(n : Int) else n
  | _ => none

def fraction? (s : Bytes) : Option Fraction :=
  let s := unsign s
  let whole := s.takeWhile isDigit
  match s.dropWhile isDigit with
  | 46 :: rest =>
    let part := rest.takeWhile isDigit
    if whole.isEmpty && part.isEmpty then none
    else (exponent? (rest.dropWhile isDigit)).map fun e => ⟨whole ++ part, part.length, e⟩
  | rest => if whole.isEmpty then none else (exponent? rest).map fun e => ⟨whole, 0, e⟩

/-- Whether a fraction is too large for a binary floating point number of 64 bits: it would be
rounded to a power of two beyond the largest of them. -/
def Fraction.overflows (f : Fraction) : Bool :=
  let n := (natural? 10 f.digits).getD 0
  let e := f.exponent - f.places
  let magnitude := e + (Nat.toDigits 10 n).length
  if n = 0 || magnitude < 300 then false
  else if magnitude > 320 then true
  else
    let limit := Nat.pow 2 1024 - Nat.pow 2 970
    let scale := Nat.pow 10 e.natAbs
    if e < 0 then n ≥ limit * scale else n * scale ≥ limit

def isFloat (s : Bytes) : Bool := (fraction? s).any fun f => !f.overflows

/-! ## Points in time -/

def twoDigits? (low high : Nat) (s : Bytes) : Option (Nat × Bytes) :=
  match s with
  | a :: b :: rest =>
    if isDigit a && isDigit b then
      let n := (a.toNat - 48) * 10 + (b.toNat - 48)
      if low ≤ n && n ≤ high then some (n, rest) else none
    else if isDigit a && low ≤ a.toNat - 48 then some (a.toNat - 48, b :: rest)
    else none
  | [a] => if isDigit a && low ≤ a.toNat - 48 then some (a.toNat - 48, []) else none
  | [] => none

def daysIn (year month : Nat) : Nat :=
  if month = 2 then
    if year % 4 = 0 && (year % 100 != 0 || year % 400 = 0) then 29 else 28
  else if [4, 6, 9, 11].contains month then 30
  else 31

def afterDate? (s : Bytes) : Option Bytes := do
  let year ← natural? 10 (s.take 4)
  let rest ← Bytes.after? (s.drop 4) "-"
  let (month, rest) ← twoDigits? 1 12 rest
  let rest ← rest.after? "-"
  let (day, rest) ← twoDigits? 1 31 rest
  if day ≤ daysIn year month then some rest else none

/-- What follows a time of day such as `1:02:03.5`. -/
def afterTime? (s : Bytes) : Option Bytes := do
  let (_, rest) ← twoDigits? 0 23 s
  let rest ← rest.after? ":"
  let (_, rest) ← twoDigits? 0 59 rest
  let rest ← rest.after? ":"
  let (_, rest) ← twoDigits? 0 59 rest
  match rest with
  | 46 :: d :: more | 44 :: d :: more =>
    if isDigit d then some (more.dropWhile isDigit) else some rest
  | _ => some rest

def isZone : Bytes → Bool
  | [90] => true
  | [sign, a, b, 58, c, d] =>
    (sign == 43 || sign == 45) && [a, b, c, d].all isDigit &&
      (a.toNat - 48) * 10 + (b.toNat - 48) ≤ 24 && (c.toNat - 48) * 10 + (d.toNat - 48) ≤ 60
  | _ => false

/-- Whether a text denotes a date, or a date with a time. -/
def isTimestamp (s : Bytes) : Bool :=
  if (s.takeWhile isDigit).length != 4 then false
  else match afterDate? s with
    | none => false
    | some [] => true
    | some (32 :: rest) => afterTime? rest == some []
    | some (84 :: rest) | some (116 :: rest) => (afterTime? rest).any isZone
    | _ => false

/-! ## Plain scalars -/

def spellings : List (Bytes × Tag) :=
  [("", .null), ("~", .null), ("null", .null), ("Null", .null), ("NULL", .null),
    ("true", .bool), ("True", .bool), ("TRUE", .bool),
    ("false", .bool), ("False", .bool), ("FALSE", .bool),
    (".nan", .float), (".NaN", .float), (".NAN", .float),
    (".inf", .float), (".Inf", .float), (".INF", .float),
    ("+.inf", .float), ("+.Inf", .float), ("+.INF", .float),
    ("-.inf", .float), ("-.Inf", .float), ("-.INF", .float)]

/-- The tag of a scalar that is written without quotes. Only digits, signs and points begin a
number, and underscores between its digits are ignored. -/
def Tag.ofPlain (value : Bytes) : Tag :=
  match spellings.find? fun entry => entry.1 == value with
  | some entry => entry.2
  | none =>
    match value with
    | [] => .null
    | b :: rest =>
      if b == 46 then if isDigit (rest.headD 0) && isFloat value then .float else .str
      else if b == 43 || b == 45 || isDigit b then
        let plain := value.filter (· != 95)
        if isTimestamp value then .timestamp
        else if isInteger plain then .int
        else if isFloat plain then .float
        else .str
      else .str

/-! ## Binary data -/

namespace Base64

def digit? (b : UInt8) : Option Nat :=
  if 65 ≤ b && b ≤ 90 then some (b.toNat - 65)
  else if 97 ≤ b && b ≤ 122 then some (b.toNat - 71)
  else if isDigit b then some (b.toNat + 4)
  else if b == 43 then some 62
  else if b == 47 then some 63
  else none

/-- The bytes of groups of four digits. The last group may be padded. -/
def groups : Bytes → Option Bytes
  | [] => some []
  | [a, b, 61, 61] => do
    let x ← digit? a
    let y ← digit? b
    some [(x * 4 + y / 16).toUInt8]
  | [a, b, c, 61] => do
    let x ← digit? a
    let y ← digit? b
    let z ← digit? c
    some [(x * 4 + y / 16).toUInt8, (y % 16 * 16 + z / 4).toUInt8]
  | a :: b :: c :: d :: rest => do
    let x ← digit? a
    let y ← digit? b
    let z ← digit? c
    let w ← digit? d
    let more ← groups rest
    some ((x * 4 + y / 16).toUInt8 :: (y % 16 * 16 + z / 4).toUInt8 :: (z % 4 * 64 + w).toUInt8 ::
      more)
  | _ => none

/-- The bytes that a text denotes. Line breaks are ignored. -/
def decode? (s : Bytes) : Option Bytes := groups (s.filter fun b => b != 10 && b != 13)

end Base64

end LuaLint.Yaml
