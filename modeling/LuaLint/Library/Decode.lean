import LuaLint.Yaml.Node
import LuaLint.Library.Basic
import LuaLint.Library.Fault

/-!
# Decoding libraries

A library document maps the names of globals to descriptions of fields. Names may be dotted, and a
description may hold further fields under keys that have no meaning of their own, so that a field
can be declared in several forms.
-/

namespace LuaLint

structure Decoder where
  name : Bytes
  document : Yaml.Document

namespace Decoder

/-! ## Nodes -/

abbrev Result (α : Type) := Except DecodeError α

variable {σ : Type}

def fail {α : Type} (d : Decoder) (n : Yaml.Node) (fault : DecodeFault) : Result α :=
  .error ⟨d.name, n.line, fault⟩

/-- Folds over the pairs of a list, each with the text of its key, the key and the value that the
value stands for. -/
def foldPairs (d : Decoder) (what : Bytes)
    (f : σ → Bytes → Yaml.Node → Yaml.Node → Result σ) :
    List (Yaml.Node × Yaml.Node) → σ → Result σ
  | [], acc => .ok acc
  | (k, v) :: rest, acc =>
    match k with
    | .scalar _ _ key =>
      (f acc key k (d.document.resolve v)).bind fun acc => foldPairs d what f rest acc
    | k => d.fail k (.keyNotString what)

def pairs (d : Decoder) (n : Yaml.Node) (what : Bytes) (init : σ)
    (f : σ → Bytes → Yaml.Node → Yaml.Node → Result σ) : Result σ :=
  match d.document.resolve n with
  | .mapping _ entries => d.foldPairs what f entries init
  | n => d.fail n (.notMapping what)

def scalar (d : Decoder) : Yaml.Node → Result Bytes
  | .scalar _ _ value => .ok value
  | n => d.fail n .notString

/-- A truth value. A null leaves the value `current` in place. -/
def boolean (d : Decoder) (current : Bool) (n : Yaml.Node) : Result Bool :=
  match n with
  | .scalar _ tag value =>
    match Yaml.Document.truthOf? tag value with
    | some .absent => .ok current
    | some (.present b) => .ok b
    | none => d.fail n .notBoolean
  | _ => d.fail n .notBoolean

def trueOnly (d : Decoder) (current : Bool) (n : Yaml.Node) : Result Bool :=
  match d.boolean current n with
  | .ok true => .ok true
  | _ => d.fail n .notTrue

/-! ## Dotted names -/

/-- The field that results from a second declaration under one name. The first one must be a plain
table, whose nested fields are kept. -/
def redeclare (d : Decoder) (key : Yaml.Node) (text : Bytes) (existing f : Field) :
    Result Field :=
  if existing.shape != .table || !existing.description.isEmpty || existing.deprecated.isSome then
    d.fail key (.definedTwice text)
  else if !f.shape.nests then d.fail key (.shapeWithoutFields text f.shape.label)
  else .ok (f.withChildren (existing.children.insertAll f.children))

/-- Puts a field at a path below some fields. The tables along the way are made as needed. The
argument `passed` is the path that has been followed. -/
def inflate (d : Decoder) (key : Yaml.Node) (text : Bytes) (f : Field) (passed : List Bytes) :
    List Bytes → NameMap Field → Result (NameMap Field)
  | [], fields => .ok fields
  | [name], fields =>
    if name.isEmpty then d.fail key (.emptySegment text)
    else match fields.get? name with
      | none => .ok (fields.insert name f)
      | some existing =>
        (d.redeclare key text existing f).map fun merged => fields.insert name merged
  | name :: next :: rest, fields =>
    if name.isEmpty then d.fail key (.emptySegment text)
    else
      let parent := (fields.get? name).getD (.table [])
      if !parent.shape.nests then
        d.fail key
          (.parentWithoutFields (Bytes.join "." (passed ++ [name])) parent.shape.label)
      else
        (d.inflate key text f (passed ++ [name]) (next :: rest) parent.children).map fun children =>
          fields.insert name (parent.withChildren children)

def place (d : Decoder) (key : Yaml.Node) (text : Bytes) (f : Field) (fields : NameMap Field) :
    Result (NameMap Field) :=
  d.inflate key text f [] (Bytes.split (Bytes.byte '.') text) fields

/-! ## Arguments -/

/-- Whether an argument is required: a truth value, or the reason why it is. -/
def requirement (d : Decoder) (n : Yaml.Node) : Result Requirement :=
  match n with
  | .scalar _ .bool _ =>
    (d.boolean false n).map fun needed => if needed then .required [] else .optional
  | .scalar _ _ value => .ok (.required value)
  | _ => d.fail n .notRequirement

/-- The type of an argument: a name, a list of constants, or a mapping with a label. -/
def argumentType (d : Decoder) (n : Yaml.Node) : Result ArgType :=
  match n with
  | .scalar _ _ value =>
    match ArgType.ofName? value with
    | some t => .ok t
    | none => d.fail n (.unknownType value)
  | .sequence _ _ items =>
    match d.document.strings? items with
    | some values => .ok (.constant values)
    | none => d.fail n .constantsNotStrings
  | .mapping _ entries =>
    match d.document.stringMap? (d.document.size + 1) entries with
    | none => d.fail n .noDisplay
    | some texts =>
      match texts.find? fun entry => entry.1 == Bytes.ofString "display" with
      | some entry => .ok (.display entry.2)
      | none => d.fail n .noDisplay
  | .alias _ _ => d.fail n .notArgumentType

def observes (d : Decoder) (n : Yaml.Node) : Result Observes :=
  (d.scalar n).bind fun word =>
    match Observes.ofLabel? word with
    | some o => .ok o
    | none => d.fail n (.unknownObserves word)

structure ArgumentDraft where
  requirement : Requirement
  type : Option ArgType
  observes : Observes

def argumentKey (d : Decoder) (a : ArgumentDraft) (key : Bytes) (k v : Yaml.Node) :
    Result ArgumentDraft :=
  if key == "required" then (d.requirement v).map fun r => { a with requirement := r }
  else if key == "type" then (d.argumentType v).map fun t => { a with type := some t }
  else if key == "observes" then (d.observes v).map fun o => { a with observes := o }
  else d.fail k (.unknownKey key)

def argument (d : Decoder) (n : Yaml.Node) : Result Argument :=
  (d.pairs n "argument" ⟨.required [], none, .readWrite⟩ d.argumentKey).bind fun a =>
    match a.type with
    | some t => .ok ⟨a.requirement, t, a.observes⟩
    | none => d.fail n .noArgumentType

def argumentList (d : Decoder) : List Yaml.Node → Result (List Argument)
  | [] => .ok []
  | n :: rest => do
    let a ← d.argument (d.document.resolve n)
    let more ← d.argumentList rest
    return a :: more

def arguments (d : Decoder) (n : Yaml.Node) : Result (List Argument) :=
  match n with
  | .sequence _ _ items => d.argumentList items
  | _ => d.fail n .argumentsNotList

/-! ## Descriptions -/

def deprecationKey (d : Decoder) (note : Deprecation) (key : Bytes) (k v : Yaml.Node) :
    Result Deprecation :=
  if key == "message" then (d.scalar v).map fun text => { note with message := text }
  else if key == "replace" then
    match v with
    | .sequence _ _ items =>
      match d.document.strings? items with
      | some texts => .ok { note with replace := texts }
      | none => d.fail v .replacementsNotStrings
    | _ => d.fail v .replacementsNotStrings
  else d.fail k (.unknownKey key)

/-- A deprecation: a message alone, or a message with replacements. -/
def deprecation (d : Decoder) (n : Yaml.Node) : Result Deprecation :=
  match n with
  | .scalar _ _ value => .ok ⟨value, []⟩
  | _ =>
    (d.pairs n "deprecated" ⟨[], []⟩ d.deprecationKey).bind fun note =>
      if note.message.isEmpty then d.fail n .noDeprecationMessage else .ok note

def olderWritability? (word : Bytes) : Option Writability :=
  if word == "overridden" then some .overrideFields
  else if word == "full" then some .fullWrite
  else Writability.ofLabel? word

structure FieldDraft where
  isAny : Bool
  isRemoved : Bool
  isProperty : Bool
  /-- Whether `writable` was given. -/
  hasWritable : Bool
  writability : Writability
  struct : Bytes
  isFunction : Bool
  function : FunctionShape
  deprecated : Option Deprecation
  description : Bytes
  /-- The nested fields that are still to be decoded, last first. -/
  children : List (Bytes × Yaml.Node × Yaml.Node)

def FieldDraft.blank : FieldDraft :=
  ⟨false, false, false, false, .readOnly, [], false, ⟨[], false, false⟩, none, [], []⟩

/-- The effect of the value of `property`: a writability, or `true`. -/
def propertyKey (d : Decoder) (f : FieldDraft) (v : Yaml.Node) : Result FieldDraft :=
  match v with
  | .scalar _ .bool _ => (d.trueOnly f.isProperty v).map fun b => { f with isProperty := b }
  | .scalar _ _ value =>
    match Writability.ofLabel? value with
    | some w => .ok { f with isProperty := true, writability := w }
    | none => d.fail v (.unknownWritability value)
  | _ => d.fail v .notWritability

def writableKey (d : Decoder) (f : FieldDraft) (v : Yaml.Node) : Result FieldDraft :=
  (d.scalar v).bind fun word =>
    match olderWritability? word with
    | some w => .ok { f with hasWritable := true, writability := w }
    | none => d.fail v (.unknownWritability word)

def methodKey (d : Decoder) (f : FieldDraft) (v : Yaml.Node) : Result FieldDraft :=
  (d.boolean f.function.method v).map fun b =>
    { f with function := { f.function with method := b }, isFunction := f.isFunction || b }

def fieldKey (d : Decoder) (f : FieldDraft) (key : Bytes) (k v : Yaml.Node) :
    Result FieldDraft :=
  if key == "any" then (d.trueOnly f.isAny v).map fun b => { f with isAny := b }
  else if key == "removed" then (d.trueOnly f.isRemoved v).map fun b => { f with isRemoved := b }
  else if key == "property" then d.propertyKey f v
  else if key == "writable" then d.writableKey f v
  else if key == "struct" then (d.scalar v).map fun text => { f with struct := text }
  else if key == "args" then
    (d.arguments v).map fun args =>
      { f with
        isFunction := true
        function := { f.function with args := f.function.args ++ args } }
  else if key == "method" then d.methodKey f v
  else if key == "must_use" then
    (d.boolean f.function.mustUse v).map fun b =>
      { f with function := { f.function with mustUse := b } }
  else if key == "deprecated" then
    (d.deprecation v).map fun note => { f with deprecated := some note }
  else if key == "description" then (d.scalar v).map fun text => { f with description := text }
  else .ok { f with children := (key, k, v) :: f.children }

/-- What a field is, once all its keys are known. -/
def shapeOf (d : Decoder) (n : Yaml.Node) (f : FieldDraft) : Result FieldShape :=
  if f.isProperty && f.isFunction then d.fail n .propertyAndFunction
  else if f.isProperty then .ok (.property f.writability)
  else if f.hasWritable then d.fail n .writableWithoutProperty
  else if !f.struct.isEmpty then .ok (.struct f.struct)
  else if f.isFunction then .ok (.function f.function)
  else if f.children.isEmpty && f.description.isEmpty && f.deprecated.isNone then d.fail n .noShape
  else .ok .table

/-- What a field is, unless it has a key that does not go with that. -/
def checkedShape (d : Decoder) (n : Yaml.Node) (f : FieldDraft) : Result FieldShape :=
  (d.shapeOf n f).bind fun shape =>
    match shape, f.function.mustUse with
    | .function _, _ => .ok shape
    | _, true => d.fail n .mustUseWithoutFunction
    | _, false =>
      match shape.nests, f.children.getLast? with
      | false, some (_, k, _) => d.fail k (.nestedFields shape.label)
      | _, _ => .ok shape

/-! ## Fields -/

def nested (d : Decoder) (decode : Yaml.Node → Result Field) :
    List (Bytes × Yaml.Node × Yaml.Node) → NameMap Field → Result (NameMap Field)
  | [], fields => .ok fields
  | (text, k, v) :: rest, fields =>
    (decode v).bind fun f =>
      (d.place k text f fields).bind fun fields => d.nested decode rest fields

/-- One level of decoding a field, for any way to decode the fields that are nested in it. -/
def fieldBy (d : Decoder) (decode : Yaml.Node → Result Field) (n : Yaml.Node) : Result Field :=
  (d.pairs n "field" .blank d.fieldKey).bind fun f =>
    if f.isAny then .ok (.mk .any f.deprecated f.description [])
    else if f.isRemoved then .ok (.mk .removed f.deprecated f.description [])
    else
      (d.checkedShape n f).bind fun shape =>
        (d.nested decode f.children.reverse []).map fun children =>
          .mk shape f.deprecated f.description children

/-- The field that a node describes. The first argument bounds how deep fields may nest; the number
of nodes is bound enough unless a node is nested in itself. -/
def field (d : Decoder) : Nat → Yaml.Node → Result Field
  | 0, n => d.fail n .endless
  | fuel + 1, n => d.fieldBy (d.field fuel) n

def fieldsBy (d : Decoder) (decode : Yaml.Node → Result Field) (n : Yaml.Node) (what : Bytes)
    (init : NameMap Field) : Result (NameMap Field) :=
  d.pairs n what init fun fields text k v => (decode v).bind fun f => d.place k text f fields

def fields (d : Decoder) (n : Yaml.Node) (what : Bytes) (init : NameMap Field) :
    Result (NameMap Field) :=
  d.fieldsBy (d.field (d.document.size + 1)) n what init

def structsBy (d : Decoder) (decode : Yaml.Node → Result Field) (n : Yaml.Node)
    (init : NameMap Field) : Result (NameMap Field) :=
  d.pairs n "structs" init fun tables name _ v =>
    (d.fieldsBy decode v ("struct " ++ name) []).map fun children =>
      tables.insert name (.table children)

def structs (d : Decoder) (n : Yaml.Node) (init : NameMap Field) : Result (NameMap Field) :=
  d.structsBy (d.field (d.document.size + 1)) n init

end Decoder

/-! ## Libraries -/

mutual

/-- The first field below a path that names a shared table which does not exist. -/
def Field.danglingStruct? (known : List Bytes) (path : Bytes) : Field → Option (Bytes × Bytes)
  | .mk shape _ _ children =>
    match shape with
    | .struct name =>
      if known.contains name then danglingStructIn? known path children else some (path, name)
    | _ => danglingStructIn? known path children

/-- The first of several fields that names a shared table which does not exist. -/
def danglingStructIn? (known : List Bytes) (path : Bytes) :
    List (Bytes × Field) → Option (Bytes × Bytes)
  | [] => none
  | (name, f) :: rest =>
    match f.danglingStruct? known (if path.isEmpty then name else path ++ "." ++ name) with
    | some found => some found
    | none => danglingStructIn? known path rest

end

/-- Whether every field that names a shared table names an existing one. -/
def Library.checkStructs (lib : Library) (document : Bytes) : Except DecodeError Unit :=
  let inStructs := lib.structs.findSome? fun entry =>
    danglingStructIn? lib.structs.names entry.1 entry.2.children
  match (danglingStructIn? lib.structs.names [] lib.globals).or inStructs with
  | some (field, name) => .error ⟨document, 0, .noStruct field name⟩
  | none => .ok ()

/-- A library without a base has to define the shared tables it names. -/
def Library.closed (lib : Library) (document : Bytes) : Except DecodeError Library :=
  if lib.base.isEmpty then (lib.checkStructs document).map fun _ => lib else .ok lib

namespace Decoder

def libraryKeyBy (d : Decoder) (decode : Yaml.Node → Result Field) (lib : Library) (key : Bytes)
    (k v : Yaml.Node) : Result Library :=
  if key == "base" then (d.scalar v).map fun text => { lib with base := text }
  else if key == "name" then (d.scalar v).map fun text => { lib with name := text }
  else if key == "globals" then
    (d.fieldsBy decode v "globals" lib.globals).map fun fields => { lib with globals := fields }
  else if key == "structs" then
    (d.structsBy decode v lib.structs).map fun tables => { lib with structs := tables }
  else d.fail k (.unknownKey key)

/-- Decoding a library for any way to decode its fields. -/
def libraryBy (d : Decoder) (decode : Yaml.Node → Result Field) : Result Library :=
  (d.pairs d.document.root "document" .empty (d.libraryKeyBy decode)).bind fun lib =>
    lib.closed d.name

def library (d : Decoder) : Result Library := d.libraryBy (d.field (d.document.size + 1))

end Decoder

end LuaLint
