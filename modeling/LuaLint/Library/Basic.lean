import LuaLint.Library.Field

/-!
# Standard libraries

A standard library describes what a program may use without declaring it. Libraries are layered:
one names another as its base and is put over it.
-/

namespace LuaLint

structure Library where
  /-- The name under which the library is known, or nothing. -/
  name : Bytes
  /-- The names of the libraries below it, or nothing. -/
  base : Bytes
  /-- The fields that a program reaches by their names alone. -/
  globals : NameMap Field
  structs : NameMap Field
  deriving Inhabited

namespace Library

def empty : Library := ⟨[], [], [], []⟩

/-- The field that a field stands for: a shared table in place of a field that names one. -/
def unstruct? (lib : Library) (f : Field) : Option Field :=
  match f.shape with
  | .struct name => lib.structs.get? name
  | _ => some f

def anything : NameMap Field := [("*", .ofShape .any)]

def findIn? (lib : Library) (fields : NameMap Field) : List Bytes → Option Field
  | [] => none
  | [name] =>
    match (Field.child? name fields).bind lib.unstruct? with
    | none => none
    | some f => if f.shape = .removed then none else some f
  | name :: next :: rest =>
    match (Field.child? name fields).bind lib.unstruct? with
    | none => none
    | some f =>
      if f.shape = .any then findIn? lib anything (next :: rest)
      else if f.hasChildren then findIn? lib f.children (next :: rest)
      else none

def find? (lib : Library) (path : List Bytes) : Option Field := lib.findIn? lib.globals path

def hasGlobal (lib : Library) (name : Bytes) : Bool := (lib.find? [name]).isSome

/-- Whether every access to a field of a global can be checked. -/
def globalHasFields (lib : Library) (name : Bytes) : Bool :=
  (lib.find? [name]).any fun f => f.shape == .any || f.hasChildren

/-- The library put over `base`, of which removal markers are dropped first. -/
def extend (lib base : Library) : Library :=
  { lib with
    globals := Field.overlayAll (Field.overlayAll [] base.globals) lib.globals
    structs := Field.overlayAll (Field.overlayAll [] base.structs) lib.structs }

def prune (lib : Library) : Library := lib.extend empty

end Library

end LuaLint
