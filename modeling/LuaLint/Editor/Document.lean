import LuaLint.Editor.Position
import LuaLint.Editor.Symbol
import LuaLint.Scope.Resolve
import LuaLint.Syntax.Parser
import LuaLint.Text.NameMap

/-!
# Open documents

The documents that an editor has open, and what can be asked of one of them.
-/

namespace LuaLint

structure Document where
  content : Bytes
  /-- The scope graph of the text, unless it does not parse. -/
  graph : Option ScopeGraph

namespace Document

def ofContent (content : Bytes) : Document :=
  ⟨content, (Parser.parse content).toOption.map Chunk.resolve⟩

def symbolAt? (d : Document) (p : EditorPosition) : Option EditorSymbol :=
  d.graph.bind fun g => g.symbolAt? (p.offset d.content)

def rangeOf (d : Document) (s : Span) : EditorRange := .ofSpan d.content s

def definition? (d : Document) (p : EditorPosition) : Option EditorRange := do
  let symbol ← d.symbolAt? p
  let v ← symbol.target
  return d.rangeOf v.identifier

/-- The places that refer to what is named at a position. Uses of a global are matched by name. The
declaration of a variable is left out unless it is asked for. -/
def references (d : Document) (p : EditorPosition) (withDeclaration : Bool) : List EditorRange :=
  match d.graph, d.symbolAt? p with
  | some g, some symbol =>
    let spans := match symbol.target with
      | some v => (g.occurrences v).filter fun s => withDeclaration || s != v.identifier
      | none => g.globalUses (symbol.path.headD [])
    spans.map d.rangeOf
  | _, _ => []

def renameable? (d : Document) (p : EditorPosition) : Option (EditorRange × Variable) := do
  let symbol ← d.symbolAt? p
  let v ← symbol.target
  if v.isRenameable then some (d.rangeOf symbol.span, v) else none

end Document

/-! ## Renaming -/

/-- Whether a text is a name of the language and no reserved word. -/
def isIdentifier (name : Bytes) : Bool :=
  TokenKind.ofName name == .name && match name with
    | [] => false
    | first :: rest =>
      Ascii.isNameStart first.toNat && rest.all fun b => Ascii.isName b.toNat

/-- Why a variable cannot be renamed. -/
inductive RenameError where
  | noDocument
  | badName (name : Bytes)
  | unparsed
  | noVariable
  deriving DecidableEq, Repr

def RenameError.message : RenameError → Bytes
  | .noDocument => "document not found"
  | .badName name => Quoted.text name ++ " is not a valid name"
  | .unparsed => "document does not parse"
  | .noVariable => "no local variable at this position"

def Document.rename (d : Document) (p : EditorPosition) (newName : Bytes) :
    Except RenameError (List EditorRange) :=
  if !isIdentifier newName then .error (.badName newName)
  else match d.graph with
    | none => .error .unparsed
    | some g =>
      match d.renameable? p with
      | none => .error .noVariable
      | some (_, v) => .ok ((g.occurrences v).map d.rangeOf)

/-! ## The store -/

abbrev DocumentStore := NameMap Document

namespace DocumentStore

/-- Opens a document, or gives an open one another text. -/
def put (store : DocumentStore) (uri content : Bytes) : DocumentStore :=
  store.insert uri (.ofContent content)

/-- Changes the text of a document to the last of some texts, or to the empty one without any. -/
def change (store : DocumentStore) (uri : Bytes) (texts : List Bytes) : DocumentStore :=
  store.put uri (texts.getLastD [])

def close (store : DocumentStore) (uri : Bytes) : DocumentStore := store.erase uri

end DocumentStore

end LuaLint
