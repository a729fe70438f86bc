import LuaLint.Text.NameMap
import LuaLint.Text.Quoted
import LuaLint.Library.ArgType

/-!
# Fields

A standard library is a tree of fields: tables, functions, properties and so on, each reached from
its parent by a name.
-/

namespace LuaLint

/-! ## Kinds of fields -/

/-- How much a program may write to a property. -/
inductive Writability where
  | readOnly
  /-- Fields may be added, the value itself not replaced. -/
  | newFields
  /-- The value may be replaced, fields not added. -/
  | overrideFields
  | fullWrite
  deriving DecidableEq, Repr, Inhabited

namespace Writability

def label : Writability → Bytes
  | .readOnly => "read-only"
  | .newFields => "new-fields"
  | .overrideFields => "override-fields"
  | .fullWrite => "full-write"

def ofLabel? (word : Bytes) : Option Writability :=
  [Writability.readOnly, .newFields, .overrideFields, .fullWrite].find? fun w => w.label == word

/-- Whether the value itself may be replaced. -/
def canOverride : Writability → Bool
  | .overrideFields | .fullWrite => true
  | _ => false

def canAddFields : Writability → Bool
  | .newFields | .fullWrite => true
  | _ => false

end Writability

structure FunctionShape where
  args : List Argument
  /-- Whether it must be called with a colon. -/
  method : Bool
  /-- Whether its result must not be dropped. -/
  mustUse : Bool
  deriving DecidableEq, Repr, Inhabited

inductive FieldShape where
  /-- A table that holds nothing but its nested fields. -/
  | table
  /-- Anything: every path through it exists. -/
  | any
  /-- A function. It may have nested fields too. -/
  | function (f : FunctionShape)
  | property (w : Writability)
  /-- A field whose nested fields are those of a shared table. -/
  | struct (name : Bytes)
  /-- A marker that deletes the field of this name when it is put over another library. -/
  | removed
  deriving DecidableEq, Repr, Inhabited

namespace FieldShape

def label : FieldShape → Bytes
  | .table => "table"
  | .any => "any"
  | .function _ => "function"
  | .property _ => "property"
  | .struct _ => "struct"
  | .removed => "removed"

def nests : FieldShape → Bool
  | .table | .function _ => true
  | _ => false

end FieldShape

/-! ## Deprecation -/

/-- A note that a field should not be used any more. -/
structure Deprecation where
  message : Bytes
  /-- What to write instead. In these texts `%1` stands for the first argument of the call and so
  on, `%...` for all of them and `%%` for a percent sign. -/
  replace : List Bytes
  deriving DecidableEq, Repr, Inhabited

namespace Deprecation

def numeral (digits : Bytes) : Nat := digits.foldl (fun n d => n * 10 + (d.toNat - 48)) 0

/-- A replacement text with the arguments put in, or nothing when it asks for one that was not
passed. The first argument counts the bytes that belong to a placeholder that has been dealt
with. -/
def fillFrom (args : List Bytes) : Nat → Bytes → Option Bytes
  | _, [] => some []
  | skip + 1, _ :: rest => fillFrom args skip rest
  | 0, 37 :: rest =>
    let digits := rest.takeWhile fun b => 48 ≤ b && b ≤ 57
    if Bytes.startsWith rest "%" then (fillFrom args 1 rest).map (37 :: ·)
    else if Bytes.startsWith rest "..." then (fillFrom args 3 rest).map (Bytes.join ", " args ++ ·)
    else if digits.isEmpty then (fillFrom args 0 rest).map (37 :: ·)
    else match numeral digits with
      | 0 => none
      | n + 1 =>
        match args[n]? with
        | none => none
        | some arg => (fillFrom args digits.length rest).map (arg ++ ·)
  | 0, b :: rest => (fillFrom args 0 rest).map (b :: ·)

/-- The first replacement for which every argument was passed. -/
def tryInstead? (d : Deprecation) (args : List Bytes) : Option Bytes :=
  d.replace.findSome? (fillFrom args 0)

end Deprecation

/-! ## Fields -/

inductive Field where
  | mk (shape : FieldShape) (deprecated : Option Deprecation) (description : Bytes)
      (children : List (Bytes × Field))
  deriving Inhabited

namespace Field

def shape : Field → FieldShape
  | .mk shape _ _ _ => shape

def deprecated : Field → Option Deprecation
  | .mk _ deprecated _ _ => deprecated

def description : Field → Bytes
  | .mk _ _ description _ => description

def children : Field → NameMap Field
  | .mk _ _ _ children => children

def ofShape (shape : FieldShape) : Field := .mk shape none [] []

def table (children : NameMap Field) : Field := .mk .table none [] children

def withChildren (f : Field) (children : NameMap Field) : Field :=
  .mk f.shape f.deprecated f.description children

def hasChildren (f : Field) : Bool := f.shape.nests && !f.children.isEmpty

/-- The field nested under a name. A field named `*` stands for every name that has no field of its
own. -/
def child? (name : Bytes) (children : NameMap Field) : Option Field :=
  match children.get? name with
  | some f => some f
  | none => children.get? "*"

/-! ## Overlays -/

mutual

/-- A field put over another one. The nested fields of both are merged when both have some. -/
def overlay (under : Option Field) : Field → Field
  | .mk shape deprecated description children =>
    let kept := match under with
      | some f => if shape.nests && !children.isEmpty && f.hasChildren then f.children else []
      | none => []
    .mk shape deprecated description (overlayAll kept children)

/-- Fields put over other ones. A removal marker deletes the field below it. -/
def overlayAll (under : NameMap Field) : List (Bytes × Field) → NameMap Field
  | [] => under
  | (name, f) :: rest =>
    overlayAll
      (match f.shape with
      | .removed => under.erase name
      | _ => under.insert name (overlay (under.get? name) f)) rest

end

/-! ## Signatures -/

def argumentText (a : Argument) : Bytes :=
  a.type.label ++ if a.requirement.isRequired || a.type == .vararg then [] else "?"

def signature (path : List Bytes) (f : Field) : Bytes :=
  let name := Bytes.join "." path
  match f.shape with
  | .function fn =>
    let callee := match path.getLast? with
      | some method =>
        if fn.method && path.length > 1 then Bytes.join "." path.dropLast ++ ":" ++ method else name
      | none => name
    "function " ++ callee ++ "(" ++ Bytes.join ", " (fn.args.map argumentText) ++ ")"
  | .property w => "(property) " ++ name ++ ": " ++ w.label
  | shape => "(" ++ shape.label ++ ") " ++ name

end Field

end LuaLint
