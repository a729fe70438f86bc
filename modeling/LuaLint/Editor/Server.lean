import LuaLint.Editor.Document
import LuaLint.Editor.Message
import LuaLint.Linter

/-!
# The language server

The state of a session with an editor, and the answers to its messages. Opening or saving a document
publishes the diagnostics about it at once. After a change they are published when the document has
gone unchanged for a while, which is told to the server by `Session.settle`.
-/

namespace LuaLint

/-! ## Sessions -/

structure Session where
  ready : Bool
  documents : DocumentStore
  /-- The changed documents about which diagnostics are still to be published. -/
  pending : List Bytes
  /-- The exit status, once the server is to stop. -/
  exited : Option Nat

def Session.start : Session := ⟨false, [], [], none⟩

structure Notice where
  method : Bytes
  params : JsonValue

/-- The answer to a message. -/
inductive Outcome where
  /-- A result, null for messages that ask nothing. -/
  | result (value : JsonValue)
  | unknownMethod
  | invalidParams
  | notReady
  | notRenamed (e : RenameError)

def Outcome.message? : Outcome → Option Bytes
  | .notReady => some "server not initialized"
  | .notRenamed e => some e.message
  | _ => none

/-! ## Values sent to the editor -/

namespace EditorPosition

def json (p : EditorPosition) : JsonValue :=
  .object [("line", .nat p.line), ("character", .nat p.character)]

end EditorPosition

namespace EditorRange

def json (r : EditorRange) : JsonValue := .object [("start", r.start.json), ("end", r.stop.json)]

def location (uri : Bytes) (r : EditorRange) : JsonValue :=
  .object [("uri", .text uri), ("range", r.json)]

end EditorRange

namespace Diagnostic

def editorSeverity : Severity → Nat
  | .error => 1
  | .warning => 2
  | _ => 4

def editorMessage (d : Diagnostic) : Bytes :=
  let label : Bytes := if d.primary.message.isEmpty then [] else ": " ++ d.primary.message
  let notes := d.notes.map fun note => Bytes.ofString "\nnote: " ++
    Bytes.replaceByte 10 "\n  " note
  d.message ++ label ++ notes.flatten

/-- A diagnostic as a JSON value for an editor. Other labels become related places. -/
def editorJson (uri content : Bytes) (d : Diagnostic) : JsonValue :=
  let related := d.secondary.map fun l => JsonValue.object [
    ("location", (EditorRange.ofLabel content l).location uri), ("message", .text l.message)]
  let range : Bytes × JsonValue := ("range", (EditorRange.ofLabel content d.primary).json)
  let severity : Bytes × JsonValue := ("severity", .nat (editorSeverity d.severity))
  let code : List (Bytes × JsonValue) := if d.code.isEmpty then [] else [("code", .text d.code)]
  let message : List (Bytes × JsonValue) :=
    [("source", .text "selene"), ("message", .text d.editorMessage)]
  let others : List (Bytes × JsonValue) :=
    if related.isEmpty then [] else [("relatedInformation", .list related)]
  .object (range :: severity :: code ++ message ++ others)

end Diagnostic

namespace Notice

def diagnostics (uri : Bytes) (items : List JsonValue) : Notice :=
  ⟨"textDocument/publishDiagnostics",
    .object [("uri", .text uri), ("diagnostics", .list items)]⟩

end Notice

/-- What the server tells about itself at the beginning of a session. -/
def serverInfo : JsonValue :=
  .object [
    ("capabilities", .object [
      ("textDocumentSync", .object [("openClose", .bool true), ("change", .nat 1),
        ("save", .object [("includeText", .bool false)])]),
      ("hoverProvider", .bool true), ("definitionProvider", .bool true),
      ("referencesProvider", .bool true),
      ("renameProvider", .object [("prepareProvider", .bool true)])]),
    ("serverInfo", .object [("name", .text "selene-lsp"), ("version", .text "0.1.0")])]

/-! ## Descriptions of names -/

def Variable.hoverText (v : Variable) : Bytes :=
  let kind : Bytes := if v.hoisted then "global " else "local "
  let attrib : Bytes := match v.attrib with
    | some word => " <" ++ word ++ ">"
    | none => []
  "```lua\n" ++ kind ++ v.name ++ attrib ++ "\n```\n\n" ++ Bytes.ofNat v.references.length ++
    " references"

def Field.hoverText (path : List Bytes) (f : Field) : Bytes :=
  let mustUse := match f.shape with
    | .function fn => fn.mustUse
    | _ => false
  let result : Bytes := if mustUse then "\n\nThe return value must be used." else []
  let description : Bytes := if f.description.isEmpty then [] else "\n\n" ++ f.description
  let deprecated : Bytes := match f.deprecated with
    | some d => "\n\n**Deprecated:** " ++ d.message
    | none => []
  "```lua\n" ++ f.signature path ++ "\n```" ++ result ++ description ++ deprecated

/-- The description of a name: that of its variable, or of the field of the standard library. -/
def EditorSymbol.hoverText? (library : Library) (s : EditorSymbol) : Option Bytes :=
  match s.target with
  | some v => some v.hoverText
  | none => (library.find? s.path).map (Field.hoverText s.path)

/-! ## Answers -/

def Linter.editorDiagnostics (l : Linter) (uri content : Bytes) : List JsonValue :=
  let ds := match l.run content with
    | .ok ds => ds
    | .error e => [e.diagnostic]
  ds.map (Diagnostic.editorJson uri content)

namespace Session

/-- The notices about an open document, none when it is not open. -/
def publish (s : Session) (l : Linter) (uri : Bytes) : List Notice :=
  (s.documents.get? uri).toList.map fun d =>
    .diagnostics uri (l.editorDiagnostics uri d.content)

/-- The session without pending diagnostics about a document. -/
def cancel (s : Session) (uri : Bytes) : Session :=
  { s with pending := s.pending.filter (· != uri) }

def settle (s : Session) (l : Linter) : Session × List Notice :=
  ({ s with pending := [] }, s.pending.flatMap (s.publish l))

def hover (s : Session) (l : Linter) (uri : Bytes) (p : EditorPosition) : Option JsonValue := do
  let d ← s.documents.get? uri
  let symbol ← d.symbolAt? p
  let text ← symbol.hoverText? l.library
  return .object [
    ("contents", .object [("kind", .text "markdown"), ("value", .text text)]),
    ("range", (d.rangeOf symbol.span).json)]

def definition (s : Session) (uri : Bytes) (p : EditorPosition) : Option JsonValue := do
  let d ← s.documents.get? uri
  let range ← d.definition? p
  return range.location uri

/-- Where the name at a position is used, or nothing when there is no such place. -/
def references (s : Session) (uri : Bytes) (p : EditorPosition) (withDeclaration : Bool) :
    Option JsonValue := do
  let d ← s.documents.get? uri
  match d.references p withDeclaration with
  | [] => none
  | ranges => some (.list (ranges.map (EditorRange.location uri)))

def prepareRename (s : Session) (uri : Bytes) (p : EditorPosition) : Option JsonValue := do
  let d ← s.documents.get? uri
  let (range, v) ← d.renameable? p
  return .object [("range", range.json), ("placeholder", .text v.name)]

def rename (s : Session) (uri : Bytes) (p : EditorPosition) (newName : Bytes) :
    Except RenameError JsonValue := do
  let d ← (s.documents.get? uri).elim (.error .noDocument) .ok
  let ranges ← d.rename p newName
  let edits := ranges.map fun r => JsonValue.object [("range", r.json), ("newText", .text newName)]
  return .object [("changes", .object [(uri, .list edits)])]

/-- The effect of a message that has been read: the session after it, the answer, and what is told
to the editor. -/
def handle (s : Session) (l : Linter) : EditorMessage → Session × Outcome × List Notice
  | .beginSession => ({ s with ready := true }, .result serverInfo, [])
  | .endSession => ({ s with ready := false, pending := [] }, .result .null, [])
  | .exit => ({ s with exited := some 0 }, .result .null, [])
  | .setTrace => (s, .result .null, [])
  | .didOpen uri text =>
    let s := { s with documents := s.documents.put uri text }
    (s, .result .null, s.publish l uri)
  | .didChange uri texts =>
    let s := s.cancel uri
    let s := { s with documents := s.documents.change uri texts, pending := s.pending ++ [uri] }
    (s, .result .null, [])
  | .didSave uri => (s.cancel uri, .result .null, s.publish l uri)
  | .didClose uri =>
    let s := s.cancel uri
    ({ s with documents := s.documents.close uri }, .result .null, [.diagnostics uri []])
  | .hover uri p => (s, .result ((s.hover l uri p).getD .null), [])
  | .definition uri p => (s, .result ((s.definition uri p).getD .null), [])
  | .references uri p withDeclaration =>
    (s, .result ((s.references uri p withDeclaration).getD .null), [])
  | .prepareRename uri p => (s, .result ((s.prepareRename uri p).getD .null), [])
  | .rename uri p newName =>
    match s.rename uri p newName with
    | .ok value => (s, .result value, [])
    | .error e => (s, .notRenamed e, [])

/-- The effect of a message. Before the session has begun and after it has ended only its beginning
is answered. -/
def receive (s : Session) (l : Linter) (method : Bytes) (params : JsonValue) :
    Session × Outcome × List Notice :=
  if !s.ready && method != "initialize" then (s, .notReady, [])
  else match EditorMessage.reader? method with
    | none => (s, .unknownMethod, [])
    | some read =>
      match read params with
      | none => (s, .invalidParams, [])
      | some message => s.handle l message

end Session

end LuaLint
