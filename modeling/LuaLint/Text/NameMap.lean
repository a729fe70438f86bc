import LuaLint.Text.Bytes

/-!
# Maps from names

Finite maps whose keys are byte strings, as lists of pairs in ascending order of the keys. The order
makes the list of a map unique, so that two maps are the same when their lists are.
-/

namespace LuaLint

abbrev NameMap (α : Type) := List (Bytes × α)

namespace NameMap

variable {α : Type}

def get? (name : Bytes) : NameMap α → Option α
  | [] => none
  | (k, v) :: rest => if k == name then some v else get? name rest

def has (name : Bytes) (m : NameMap α) : Bool := (m.get? name).isSome

def insert (name : Bytes) (value : α) : NameMap α → NameMap α
  | [] => [(name, value)]
  | (k, v) :: rest =>
    if k == name then (name, value) :: rest
    else if Bytes.before name k then (name, value) :: (k, v) :: rest
    else (k, v) :: insert name value rest

def erase (name : Bytes) (m : NameMap α) : NameMap α := m.filter fun entry => entry.1 != name

def insertAll (m other : NameMap α) : NameMap α :=
  other.foldl (fun acc entry => acc.insert entry.1 entry.2) m

/-- The names that have values, in ascending order. -/
def names (m : NameMap α) : List Bytes := m.map Prod.fst

end NameMap

end LuaLint
