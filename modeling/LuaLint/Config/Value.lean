import LuaLint.Text.NameMap
import LuaLint.Decimal.Binary64

/-!
# Configuration values

What a configuration document can hold: the values of its entries before anything is known about
their meaning.
-/

namespace LuaLint

inductive ConfigValue where
  | null
  | bool (value : Bool)
  | int (value : Int)
  | float (value : Binary64)
  | text (value : Bytes)
  | moment (shown : Bytes)
  | list (items : List ConfigValue)
  | table (entries : List (Bytes × ConfigValue))
  deriving Inhabited

namespace ConfigValue

mutual

def shown : ConfigValue → Bytes
  | .null => "<nil>"
  | .bool value => if value then "true" else "false"
  | .int value => Bytes.ofInt value
  | .float value => value.text
  | .text value => value
  | .moment shown => shown
  | .list items => "[" ++ Bytes.join " " (shownList items) ++ "]"
  | .table entries => "map[" ++ Bytes.join " " (shownEntries entries) ++ "]"

def shownList : List ConfigValue → List Bytes
  | [] => []
  | v :: rest => v.shown :: shownList rest

def shownEntries : List (Bytes × ConfigValue) → List Bytes
  | [] => []
  | (k, v) :: rest => (k ++ ":" ++ v.shown) :: shownEntries rest

end

def typeName : ConfigValue → Bytes
  | .null => "<nil>"
  | .bool _ => "bool"
  | .int _ => "int64"
  | .float _ => "float64"
  | .text _ => "string"
  | .moment _ => "time.Time"
  | .list _ => "[]interface \x7b\x7d"
  | .table _ => "map[string]interface \x7b\x7d"

def entries? : ConfigValue → Option (NameMap ConfigValue)
  | .table entries => some entries
  | _ => none

end ConfigValue

end LuaLint
