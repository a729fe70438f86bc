import LuaLint.Text.Quoted

/-!
# Flags

The flags of the command line and how they are read. A flag is written out after two dashes or, if
it has a letter, by that letter after one dash, where several switches can stand together. Flags may
stand among the arguments, and two dashes alone end them.
-/

namespace LuaLint

/-! ## The flags -/

inductive Flag where
  | config
  | color
  | verbose
  | std
  | json
  | quiet
  | list
  | timings
  /-- The number of files that are checked at once. -/
  | jobs
  /-- A pattern of files that are not to be checked. -/
  | exclude
  | validate
  | listGlobals
  | stdio
  | port
  | help
  deriving DecidableEq, Repr

inductive FlagKind where
  /-- A truth value, which can be left out. -/
  | switch
  | text
  | number
  deriving DecidableEq, Repr

namespace Flag

def name : Flag → Bytes
  | .config => "config"
  | .color => "color"
  | .verbose => "verbose"
  | .std => "std"
  | .json => "json"
  | .quiet => "quiet"
  | .list => "list"
  | .timings => "timings"
  | .jobs => "jobs"
  | .exclude => "exclude"
  | .validate => "validate"
  | .listGlobals => "list-globals"
  | .stdio => "stdio"
  | .port => "port"
  | .help => "help"

def letter? : Flag → Option UInt8
  | .verbose => some 118
  | .quiet => some 113
  | .jobs => some 106
  | .listGlobals => some 108
  | .help => some 104
  | _ => none

def kind : Flag → FlagKind
  | .config | .color | .std | .exclude | .validate => .text
  | .jobs | .port => .number
  | _ => .switch

def title (f : Flag) : Bytes :=
  match f.letter? with
  | some letter => "-" ++ [letter] ++ ", --" ++ f.name
  | none => "--" ++ f.name

def ofName? (flags : List Flag) (name : Bytes) : Option Flag := flags.find? fun f => f.name == name

def ofLetter? (flags : List Flag) (letter : UInt8) : Option Flag :=
  flags.find? fun f => f.letter? == some letter

end Flag

/-! ## Values -/

inductive ValueFault where
  | notBool
  | notInteger
  /-- The integer takes more than 64 bits. -/
  | outOfRange
  deriving DecidableEq, Repr

def ValueFault.message (value : Bytes) : ValueFault → Bytes
  | .notBool => "strconv.ParseBool: parsing " ++ Quoted.text value ++ ": invalid syntax"
  | .notInteger => "strconv.ParseInt: parsing " ++ Quoted.text value ++ ": invalid syntax"
  | .outOfRange => "strconv.ParseInt: parsing " ++ Quoted.text value ++ ": value out of range"

namespace FlagValue

def bool? (word : Bytes) : Option Bool :=
  if (["1", "t", "T", "TRUE", "true", "True"] : List Bytes).contains word then some true
  else if (["0", "f", "F", "FALSE", "false", "False"] : List Bytes).contains word then some false
  else none

/-- The value of a digit. Letters go on after nine. -/
def digit? (b : UInt8) : Option Nat :=
  let b := Bytes.lowerByte b
  if 48 ≤ b && b ≤ 57 then some (b.toNat - 48)
  else if 97 ≤ b && b ≤ 122 then some (b.toNat - 87)
  else none

/-- The number that digits denote, with underscores left out. -/
def digitsValue (base : Nat) : Nat → Bytes → Except ValueFault Nat
  | n, [] => .ok n
  | n, b :: rest =>
    if b == 95 then digitsValue base n rest
    else match digit? b with
      | none => .error .notInteger
      | some d =>
        if d ≥ base then .error .notInteger
        else if n * base + d ≥ Nat.pow 2 64 then .error .outOfRange
        else digitsValue base (n * base + d) rest

/-- The base of a number and its digits. A letter after a zero tells the base, and a zero alone the
base eight. -/
def splitBase : Bytes → Nat × Bytes
  | 48 :: b :: c :: rest =>
    match Bytes.lowerByte b with
    | 98 => (2, c :: rest)
    | 111 => (8, c :: rest)
    | 120 => (16, c :: rest)
    | _ => (8, b :: c :: rest)
  | 48 :: rest => (8, rest)
  | s => (10, s)

def spacedFrom (afterDigit : Bool) : Bytes → Bool
  | [] => true
  | [b] => b != 95
  | b :: c :: rest =>
    if b == 95 then afterDigit && c != 95 && spacedFrom false (c :: rest)
    else spacedFrom true (c :: rest)

/-- The integer without a sign that a text denotes. -/
def natural (s : Bytes) : Except ValueFault Nat :=
  if s.isEmpty then .error .notInteger
  else
    let (base, digits) := splitBase s
    match digitsValue base 0 digits with
    | .ok n => if spacedFrom (digits.length < s.length) digits then .ok n else .error .notInteger
    | .error e => .error e

/-- The integer of 64 bits that a text denotes. -/
def integer (s : Bytes) : Except ValueFault Int :=
  let (negative, body) : Bool × Bytes := match s with
    | 43 :: rest => (false, rest)
    | 45 :: rest => (true, rest)
    | _ => (false, s)
  match natural body with
  | .error e => .error e
  | .ok n =>
    let limit := Nat.pow 2 63
    if n > limit || (n = limit && !negative) then .error .outOfRange
    else .ok (if negative then -(n : Int) else n)

def fault? (kind : FlagKind) (value : Bytes) : Option ValueFault :=
  match kind with
  | .text => none
  | .switch => if (bool? value).isSome then none else some .notBool
  | .number =>
    match integer value with
    | .ok _ => none
    | .error e => some e

end FlagValue

/-! ## Reading -/

/-- Why a command line cannot be read. -/
inductive FlagError where
  /-- There is no name after the dashes. -/
  | badSyntax (arg : Bytes)
  | unknown (name : Bytes)
  /-- There is no flag of a letter, among the given letters. -/
  | unknownLetter (letter : UInt8) (letters : Bytes)
  | noValue (arg : Bytes)
  /-- The value of a flag that is given by its letter is missing. -/
  | noLetterValue (letter : UInt8) (letters : Bytes)
  | badValue (flag : Flag) (value : Bytes) (fault : ValueFault)
  deriving DecidableEq, Repr

def FlagError.message : FlagError → Bytes
  | .badSyntax arg => "bad flag syntax: " ++ arg
  | .unknown name => "unknown flag: --" ++ name
  | .unknownLetter letter letters =>
    "unknown shorthand flag: " ++ Quoted.character letter.toNat ++ " in -" ++ letters
  | .noValue arg => "flag needs an argument: " ++ arg
  | .noLetterValue letter letters =>
    "flag needs an argument: " ++ Quoted.character letter.toNat ++ " in -" ++ letters
  | .badValue flag value fault =>
    "invalid argument " ++ Quoted.text value ++ " for " ++ Quoted.text flag.title ++ " flag: " ++
      fault.message value

structure FlagReading where
  /-- The flags with their values, in order. -/
  values : List (Flag × Bytes)
  args : List Bytes
  /-- The flag that takes the next argument as its value, and what is wrong if there is none. -/
  awaiting : Option (Flag × FlagError)
  /-- Whether no more flags can come. -/
  closed : Bool

namespace FlagReading

def start : FlagReading := ⟨[], [], none, false⟩

def assign (r : FlagReading) (f : Flag) (value : Bytes) : Except FlagError FlagReading :=
  match FlagValue.fault? f.kind value with
  | some fault => .error (.badValue f value fault)
  | none => .ok { r with values := r.values ++ [(f, value)], awaiting := none }

def readLong (flags : List Flag) (r : FlagReading) (arg : Bytes) : Except FlagError FlagReading :=
  let body := arg.drop 2
  let name := body.takeWhile (· != 61)
  if name.isEmpty || name.head? == some 45 then .error (.badSyntax arg)
  else match Flag.ofName? flags name with
    | none => .error (.unknown name)
    | some f =>
      if name.length < body.length then r.assign f (body.drop (name.length + 1))
      else if f.kind = .switch then r.assign f "true"
      else .ok { r with awaiting := some (f, .noValue arg) }

def readLetters (flags : List Flag) (r : FlagReading) : Bytes → Except FlagError FlagReading
  | [] => .ok r
  | letter :: rest =>
    let letters : Bytes := letter :: rest
    if letters.startsWith "test." then .ok r
    else match Flag.ofLetter? flags letter with
      | none => .error (.unknownLetter letter letters)
      | some f =>
        match rest with
        | 61 :: b :: value => r.assign f (b :: value)
        | _ =>
          if f.kind = .switch then (r.assign f "true").bind fun r => readLetters flags r rest
          else if rest.isEmpty then
            .ok { r with awaiting := some (f, .noLetterValue letter letters) }
          else r.assign f rest

def step (flags : List Flag) (r : FlagReading) (arg : Bytes) : Except FlagError FlagReading :=
  match r.awaiting with
  | some (f, _) => r.assign f arg
  | none =>
    if r.closed || !arg.startsWith "-" || arg.length = 1 then
      .ok { r with args := r.args ++ [arg] }
    else if arg == "--" then .ok { r with closed := true }
    else if arg.startsWith "--" then r.readLong flags arg
    else readLetters flags r (arg.drop 1)

def ofArgs (flags : List Flag) (args : List Bytes) : Except FlagError FlagReading := do
  let r ← args.foldlM (step flags) start
  match r.awaiting with
  | some (_, e) => throw e
  | none => return r

def all (r : FlagReading) (f : Flag) : List Bytes :=
  (r.values.filter fun entry => entry.1 = f).map Prod.snd

def last? (r : FlagReading) (f : Flag) : Option Bytes := (r.all f).getLast?

def isOn (r : FlagReading) (f : Flag) : Bool := (r.last? f).bind FlagValue.bool? == some true

end FlagReading

end LuaLint
