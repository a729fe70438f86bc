import LuaLint.Config.Convert
import LuaLint.Editor.Position
import LuaLint.Json.Value

/-!
# Messages of an editor

What an editor asks for, read from the JSON parameters of its messages. Members that are missing or
null have the empty value of their type, names of members match in any case, and members that are
not asked for are ignored.
-/

namespace LuaLint

inductive EditorMessage where
  | beginSession
  | endSession
  | exit
  | setTrace
  | didOpen (uri text : Bytes)
  | didChange (uri : Bytes) (texts : List Bytes)
  | didSave (uri : Bytes)
  | didClose (uri : Bytes)
  | hover (uri : Bytes) (position : EditorPosition)
  | definition (uri : Bytes) (position : EditorPosition)
  | references (uri : Bytes) (position : EditorPosition) (withDeclaration : Bool)
  | prepareRename (uri : Bytes) (position : EditorPosition)
  | rename (uri : Bytes) (position : EditorPosition) (newName : Bytes)
  deriving DecidableEq, Repr

namespace JsonValue

/-! ## Reading members -/

/-- The members of an object. A null value has none. -/
def asObject? : JsonValue → Option JsonValue
  | .object members => some (.object members)
  | .null => some (.object [])
  | _ => none

/-- The member of a name in any case, or null. -/
def field (name : Bytes) (v : JsonValue) : JsonValue :=
  (v.member? name).getD
    (((v.members.find? fun entry => lowerCase entry.1 == lowerCase name).map Prod.snd).getD .null)

def asText? : JsonValue → Option Bytes
  | .text t => some t
  | .null => some []
  | _ => none

def asBool? : JsonValue → Option Bool
  | .bool b => some b
  | .null => some false
  | _ => none

/-- An integer between two bounds, zero when the value is null. -/
def asInt? (low high : Int) : JsonValue → Option Int
  | .number n 0 => if low ≤ n && n ≤ high then some n else none
  | .null => some 0
  | _ => none

def asList? : JsonValue → Option (List JsonValue)
  | .list items => some items
  | .null => some []
  | _ => none

def asInt32? (v : JsonValue) : Option Int := v.asInt? (-2147483648) 2147483647

def asNat32? (v : JsonValue) : Option Nat := (v.asInt? 0 4294967295).map Int.toNat

def isToken (v : JsonValue) : Bool := v.asInt32?.isSome || v.asText?.isSome

def readField {α : Type} (v : JsonValue) (name : Bytes) (read : JsonValue → Option α) : Option α :=
  read (v.field name)

def asPosition? (v : JsonValue) : Option EditorPosition := do
  let o ← v.asObject?
  return ⟨← o.readField "line" asNat32?, ← o.readField "character" asNat32?⟩

def isRange (v : JsonValue) : Bool :=
  (v.asObject?).any fun o =>
    (o.readField "start" asPosition?).isSome && (o.readField "end" asPosition?).isSome

def asDocument? (v : JsonValue) : Option Bytes := do
  let o ← v.asObject?
  o.readField "uri" asText?

end JsonValue

namespace EditorMessage

open JsonValue

/-! ## Reading parameters -/

def demand (holds : Bool) : Option Unit := if holds then some () else none

/-- A document and a position in it, with the object they are members of. -/
def placed (tokens : List Bytes) (v : JsonValue) : Option (Bytes × EditorPosition × JsonValue) := do
  let o ← v.asObject?
  let uri ← o.readField "textDocument" asDocument?
  let position ← o.readField "position" asPosition?
  demand (tokens.all fun name => (o.field name).isToken)
  return (uri, position, o)

/-- The member that names the progress of a request. -/
def workToken : Bytes := "workDoneToken"

def resultToken : Bytes := "partialResultToken"

/-- Whether the parameters of an initialization are well formed. -/
def isInitialization (v : JsonValue) : Bool :=
  (v.asObject?).any fun o =>
    (o.readField "processId" asInt32?).isSome &&
    (((o.field "clientInfo").asObject?).any fun info =>
      (info.readField "name" asText?).isSome && (info.readField "version" asText?).isSome) &&
    (o.readField "locale" asText?).isSome && (o.readField "rootPath" asText?).isSome &&
    (o.readField "rootUri" asText?).isSome && (o.field "capabilities").asObject?.isSome &&
    (o.readField "trace" asText?).isSome && (o.field workToken).isToken &&
    (((o.field "workspaceFolders").asList?).any fun folders => folders.all fun folder =>
      (folder.asObject?).any fun f =>
        (f.readField "uri" asText?).isSome && (f.readField "name" asText?).isSome)

def readOpen (v : JsonValue) : Option EditorMessage := do
  let o ← v.asObject?
  let item ← (o.field "textDocument").asObject?
  let uri ← item.readField "uri" asText?
  let _ ← item.readField "languageId" asText?
  let _ ← item.readField "version" asInt32?
  let text ← item.readField "text" asText?
  return .didOpen uri text

def changeText? (v : JsonValue) : Option Bytes := do
  let o ← v.asObject?
  demand (o.field "range").isRange
  let _ ← o.readField "rangeLength" asNat32?
  o.readField "text" asText?

def readChange (v : JsonValue) : Option EditorMessage := do
  let o ← v.asObject?
  let document ← (o.field "textDocument").asObject?
  let uri ← document.readField "uri" asText?
  let _ ← document.readField "version" asInt32?
  let changes ← (o.field "contentChanges").asList?
  let texts ← changes.mapM changeText?
  return .didChange uri texts

def readSave (v : JsonValue) : Option EditorMessage := do
  let o ← v.asObject?
  let _ ← o.readField "text" asText?
  return .didSave (← o.readField "textDocument" asDocument?)

def readClose (v : JsonValue) : Option EditorMessage := do
  let o ← v.asObject?
  return .didClose (← o.readField "textDocument" asDocument?)

def readReferences (v : JsonValue) : Option EditorMessage := do
  let (uri, position, o) ← placed [workToken, resultToken] v
  let context ← (o.field "context").asObject?
  return .references uri position (← context.readField "includeDeclaration" asBool?)

def readRename (v : JsonValue) : Option EditorMessage := do
  let (uri, position, o) ← placed [workToken] v
  return .rename uri position (← o.readField "newName" asText?)

def readPlaced (tokens : List Bytes) (make : Bytes → EditorPosition → EditorMessage)
    (v : JsonValue) : Option EditorMessage :=
  (placed tokens v).map fun (uri, position, _) => make uri position

def reader? (method : Bytes) : Option (JsonValue → Option EditorMessage) :=
  let readers : List (Bytes × (JsonValue → Option EditorMessage)) := [
    ("initialize", fun v => if isInitialization v then some .beginSession else none),
    ("shutdown", fun _ => some .endSession),
    ("exit", fun _ => some .exit),
    ("$/setTrace", fun v => do
      let o ← v.asObject?
      let _ ← o.readField "value" asText?
      return .setTrace),
    ("textDocument/didOpen", readOpen),
    ("textDocument/didChange", readChange),
    ("textDocument/didSave", readSave),
    ("textDocument/didClose", readClose),
    ("textDocument/hover", readPlaced [workToken] .hover),
    ("textDocument/definition", readPlaced [workToken, resultToken] .definition),
    ("textDocument/references", readReferences),
    ("textDocument/prepareRename", readPlaced [] .prepareRename),
    ("textDocument/rename", readRename)]
  (readers.find? fun entry => entry.1 == method).map Prod.snd

end EditorMessage

end LuaLint
