import LuaLint.Text.Bytes

/-!
# Argument types

The types that a standard library can declare for the arguments of its functions.
-/

namespace LuaLint

inductive ArgType where
  | any
  | bool
  | function
  | nil
  | number
  | string
  | table
  /-- Any number of further values. -/
  | vararg
  | constant (values : List Bytes)
  /-- A type that a library names only by a label. No value of a known type fits it. -/
  | display (label : Bytes)
  deriving DecidableEq, Repr, Inhabited

namespace ArgType

def named : List (Bytes × ArgType) :=
  [("any", .any), ("bool", .bool), ("function", .function), ("nil", .nil), ("number", .number),
    ("string", .string), ("table", .table), ("...", .vararg)]

def ofName? (name : Bytes) : Option ArgType :=
  (named.find? fun entry => entry.1 == name).map Prod.snd

def unknownName (name : Bytes) : Bytes := "unknown type " ++ name

/-- A type as it is shown to the reader of a message. -/
def label : ArgType → Bytes
  | .any => "any"
  | .bool => "bool"
  | .function => "function"
  | .nil => "nil"
  | .number => "number"
  | .string => "string"
  | .table => "table"
  | .vararg => "..."
  | .constant values => Bytes.join ", " (values.map fun v => "\"" ++ v ++ "\"")
  | .display text => text

end ArgType

/-- Whether an argument must be passed. -/
inductive Requirement where
  | optional
  /-- It must be passed, for a reason that may be empty. -/
  | required (reason : Bytes)
  deriving DecidableEq, Repr, Inhabited

namespace Requirement

def isRequired : Requirement → Bool
  | .optional => false
  | .required _ => true

def reason : Requirement → Bytes
  | .optional => []
  | .required text => text

end Requirement

/-- How a function treats a table passed to it. -/
inductive Observes where
  | readWrite
  | read
  | write
  deriving DecidableEq, Repr, Inhabited

namespace Observes

def label : Observes → Bytes
  | .readWrite => "read-write"
  | .read => "read"
  | .write => "write"

def ofLabel? (word : Bytes) : Option Observes :=
  [Observes.readWrite, .read, .write].find? fun o => o.label == word

end Observes

structure Argument where
  requirement : Requirement
  type : ArgType
  observes : Observes
  deriving DecidableEq, Repr, Inhabited

end LuaLint
