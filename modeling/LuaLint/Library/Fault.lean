import LuaLint.Library.Field

/-!
# Faults of library documents

What can be wrong with a document that describes a standard library. A library that is only partly
understood would make correct programs look wrong, so every fault is an error.
-/

namespace LuaLint

inductive DecodeFault where
  /-- The document does not follow the rules of its notation. -/
  | unreadable
  | notMapping (what : Bytes)
  | keyNotString (what : Bytes)
  | unknownKey (key : Bytes)
  /-- A field refers to a shared table that does not exist. -/
  | noStruct (field name : Bytes)
  | emptySegment (key : Bytes)
  | parentWithoutFields (path : Bytes) (shape : Bytes)
  | definedTwice (key : Bytes)
  | shapeWithoutFields (key : Bytes) (shape : Bytes)
  | propertyAndFunction
  | writableWithoutProperty
  | noShape
  | mustUseWithoutFunction
  | nestedFields (shape : Bytes)
  | notString
  | notBoolean
  | notTrue
  | notWritability
  | unknownWritability (word : Bytes)
  | replacementsNotStrings
  | noDeprecationMessage
  | argumentsNotList
  /-- A word that stands for no treatment of tables. -/
  | unknownObserves (word : Bytes)
  | noArgumentType
  /-- It is not told whether an argument is required. -/
  | notRequirement
  | unknownType (name : Bytes)
  | notArgumentType
  | constantsNotStrings
  | noDisplay
  | metaNotTable (key : Bytes)
  | metaNotString (table key : Bytes)
  /-- A value that no library document can hold. -/
  | unsupported (value : Bytes)
  /-- A node is nested in itself. -/
  | endless
  deriving DecidableEq, Repr

namespace DecodeFault

def message : DecodeFault → Bytes
  | .unreadable => "the document cannot be read"
  | .notMapping what => what ++ " must be a mapping"
  | .keyNotString what => what ++ " keys must be strings"
  | .unknownKey key => "unknown key " ++ Quoted.text key
  | .noStruct field name => "field " ++ field ++ ": no struct named `" ++ name ++ "` exists"
  | .emptySegment key => "empty segment in field name " ++ Quoted.text key
  | .parentWithoutFields path shape => path ++ " is a " ++ shape ++ " and cannot have fields"
  | .definedTwice key => "field " ++ key ++ " is defined twice"
  | .shapeWithoutFields key shape => key ++ " has fields and cannot be a " ++ shape
  | .propertyAndFunction => "field is both a property and a function"
  | .writableWithoutProperty => "writable is only allowed on properties"
  | .noShape => "can't determine what kind of field this is"
  | .mustUseWithoutFunction => "must_use is only allowed on functions"
  | .nestedFields shape => "a " ++ shape ++ " cannot have fields"
  | .notString => "expected a string"
  | .notBoolean => "expected a boolean"
  | .notTrue => "expected `true`"
  | .notWritability => "expected a writability or `true`"
  | .unknownWritability word => "unknown writability " ++ Quoted.text word
  | .replacementsNotStrings => "replace must be a list of strings"
  | .noDeprecationMessage => "deprecated needs a message"
  | .argumentsNotList => "args must be a list"
  | .unknownObserves word => "unknown observes " ++ Quoted.text word
  | .noArgumentType => "argument needs a type"
  | .notRequirement => "a boolean or a string message (when required)"
  | .unknownType name => ArgType.unknownName name
  | .notArgumentType => "an argument type or an array of constant strings"
  | .constantsNotStrings => "constants must be strings"
  | .noDisplay => "map value must have a `display` property"
  | .metaNotTable key => "[" ++ key ++ "] must be a table"
  | .metaNotString table key => table ++ "." ++ key ++ " must be a string"
  | .unsupported value => "unsupported value " ++ value
  | .endless => "a field is nested in itself"

end DecodeFault

/-- A fault with the place where it was found. -/
structure DecodeError where
  document : Bytes
  /-- The line, or zero when it is not known. -/
  line : Nat
  fault : DecodeFault
  deriving DecidableEq, Repr

def DecodeError.text (e : DecodeError) : Bytes :=
  if e.line = 0 then e.document ++ ": " ++ e.fault.message
  else e.document ++ ":" ++ Bytes.ofNat e.line ++ ": " ++ e.fault.message

end LuaLint
