import LuaLint.Text.Bytes

/-!
# Binary floating point numbers

Numbers of 64 bits as they occur in configuration documents. They are read from a decimal fraction
by rounding to the nearest such number, with ties to the even one, and they are written with the
fewest digits that read back.
-/

namespace LuaLint

/-- A floating point number of 64 bits. -/
inductive Binary64 where
  /-- The number `significand * 2 ^ exponent`, negative when `negative` holds. -/
  | finite (negative : Bool) (significand : Nat) (exponent : Int)
  | infinity (negative : Bool)
  | nan
  deriving DecidableEq, Repr, Inhabited

namespace Binary64

def leastExponent : Int := -1074

def zero : Binary64 := .finite false 0 leastExponent

/-! ## Rounding -/

/-- The quotient rounded to the nearest integer, with ties to the even one. -/
def roundDiv (num den : Nat) : Nat :=
  let q := num / den
  let twice := 2 * (num % den)
  if twice > den || (twice = den && q % 2 = 1) then q + 1 else q

/-- The positive quotient `num / den` as a number. The significand has 53 bits unless the exponent
is the smallest one. -/
def ofRatio (negative : Bool) (num den : Nat) : Binary64 :=
  let estimate : Int := (Nat.log2 num : Int) - Nat.log2 den - 53
  let scaled (e : Int) : Nat :=
    if e ≥ 0 then roundDiv num (den * Nat.pow 2 e.toNat) else roundDiv
      (num * Nat.pow 2 (-e).toNat) den
  let first := max estimate leastExponent
  let e := if scaled first < Nat.pow 2 53 then first else first + 1
  let m := scaled e
  let (m, e) := if m < Nat.pow 2 53 then (m, e) else (m / 2, e + 1)
  if e > 971 then .infinity negative else .finite negative m e

def ofDecimal (negative : Bool) (digits : Nat) (exponent : Int) : Binary64 :=
  let magnitude := exponent + (Nat.toDigits 10 digits).length
  if digits = 0 || magnitude < -400 then .finite negative 0 leastExponent
  else if magnitude > 400 then .infinity negative
  else if exponent ≥ 0 then ofRatio negative (digits * Nat.pow 10 exponent.toNat) 1
  else ofRatio negative digits (Nat.pow 10 (-exponent).toNat)

def ofInt (n : Int) : Binary64 := ofDecimal (n < 0) n.natAbs 0

def isZero : Binary64 → Bool
  | .finite _ 0 _ => true
  | _ => false

/-! ## Shortest digits -/

/-- The nearest of the two neighbours of `num / den` on the grid of a power of ten that lies in the
interval of numbers that are rounded alike. All arguments are multiplied by `den`. -/
def candidate? (value low high den : Nat) (closed : Bool) : Option Nat :=
  let inside (d : Nat) : Bool :=
    if closed then low ≤ d * den && d * den ≤ high else low < d * den && d * den < high
  let below := value / den
  let belowIsNearer := 2 * (value % den) ≤ den
  match inside below && below > 0, inside (below + 1) with
  | true, true => some (if belowIsNearer then below else below + 1)
  | true, false => some below
  | false, true => some (below + 1)
  | false, false => none

/-- Tries one more digit after another. The power of ten of the last digit is `place`. -/
def shortestFrom (value low high den : Nat) (closed : Bool) : Nat → Int → Nat × Int
  | 0, place => (value / den, place)
  | fuel + 1, place =>
    let scale (n : Nat) : Nat := if place ≥ 0 then n else n * Nat.pow 10 (-place).toNat
    let den' := if place ≥ 0 then den * Nat.pow 10 place.toNat else den
    match candidate? (scale value) (scale low) (scale high) den' closed with
    | some d => (d, place)
    | none => shortestFrom value low high den closed fuel (place - 1)

/-- The fewest decimal digits that read back as a positive number, as an integer and the power of
ten of its last digit. -/
def shortest (significand : Nat) (exponent : Int) : Nat × Int :=
  -- the ends of the interval lie half way to the neighbours, so everything is taken four times
  let up : Nat := if exponent ≥ 0 then Nat.pow 2 exponent.toNat else 1
  let den : Nat := (if exponent ≥ 0 then 1 else Nat.pow 2 (-exponent).toNat) * 4
  let value := 4 * significand * up
  let closerBelow := significand = Nat.pow 2 52 && exponent > leastExponent
  let low := value - (if closerBelow then 1 else 2) * up
  let high := value + 2 * up
  let top : Int := ((Nat.log2 value : Int) - Nat.log2 den) * 30103 / 100000 + 2
  shortestFrom value low high den (significand % 2 = 0) 400 top

def dropZeros : Nat → Nat → Int → Nat × Int
  | 0, d, place => (d, place)
  | fuel + 1, d, place =>
    if d % 10 = 0 && d > 0 then dropZeros fuel (d / 10) (place + 1) else (d, place)

/-- The shortest digits of a positive number without zeros at the end, and the place of the decimal
point relative to the first digit. -/
def digits (significand : Nat) (exponent : Int) : List Char × Int :=
  let (d, place) := shortest significand exponent
  let (d, place) := dropZeros 400 d place
  let text := Nat.toDigits 10 d
  (text, place + text.length)

/-! ## Text -/

def withPoint (text : List Char) (point : Int) : List Char :=
  if point ≤ 0 then '0' :: '.' :: List.replicate (-point).toNat '0' ++ text
  else
    let n := point.toNat
    if text.length ≤ n then text ++ List.replicate (n - text.length) '0'
    else text.take n ++ '.' :: text.drop n

/-- Digits with an exponent of at least two digits. -/
def withExponent (text : List Char) (point : Int) : List Char :=
  let e := point - 1
  let size := Nat.toDigits 10 e.natAbs
  let padded := if size.length < 2 then '0' :: size else size
  text.take 1 ++ (if text.length > 1 then '.' :: text.drop 1 else []) ++
    'e' :: (if e < 0 then '-' else '+') :: padded

def signText (negative : Bool) : List Char := if negative then ['-'] else []

def ascii (cs : List Char) : Bytes := cs.map Bytes.byte

/-- A number as text. An exponent is written when the decimal point is more than four places before
the first digit or more than six after it. -/
def text : Binary64 → Bytes
  | .nan => "NaN"
  | .infinity negative => if negative then "-Inf" else "+Inf"
  | .finite negative m e =>
    if m = 0 then ascii (signText negative ++ ['0'])
    else
      let (text, point) := digits m e
      let body := if point < -3 || point > 6 then withExponent text point else withPoint text point
      ascii (signText negative ++ body)

/-- A number as text that is never written with an exponent. -/
def positional : Binary64 → Bytes
  | .nan => "NaN"
  | .infinity negative => if negative then "-Inf" else "+Inf"
  | .finite negative m e =>
    if m = 0 then ascii (signText negative ++ ['0'])
    else
      let (text, point) := digits m e
      ascii (signText negative ++ withPoint text point)

end Binary64

end LuaLint
