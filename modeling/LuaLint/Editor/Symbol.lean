import LuaLint.Scope.Graph

/-!
# Symbols

The name under the cursor and everything in the document that refers to the same thing.
-/

namespace LuaLint

/-- A name in a document. -/
structure EditorSymbol where
  span : Span
  /-- The variable that it refers to, if it is declared in the document. -/
  target : Option Variable
  /-- The names from the beginning of its chain up to it. -/
  path : List Bytes
  deriving DecidableEq, Repr

namespace ScopeGraph

def indexSymbol? (ref : Reference) (off : Int) : Option EditorSymbol := do
  let i ← ref.indexing.findIdx? fun entry => entry.span.touches off
  let entry ← ref.indexing[i]?
  return ⟨entry.span, none, ref.path.take (i + 2)⟩

/-- The symbol of a reference, if its name touches an offset or, for a global, one of the indexes
that follow it. -/
def referenceSymbol? (g : ScopeGraph) (off : Int) (ref : Reference) : Option EditorSymbol :=
  if ref.span.touches off then
    some ⟨ref.span, ref.resolved.bind fun id => g.vars[id]?, [ref.name]⟩
  else if ref.resolved.isSome then none
  else indexSymbol? ref off

/-- The symbol of a declaration, if its name touches an offset. The implicit `self` of a method is
declared at the name of the method and has no name of its own. -/
def variableSymbol? (off : Int) (v : Variable) : Option EditorSymbol :=
  if !v.isSelf && v.identifier.touches off then some ⟨v.identifier, some v, [v.name]⟩ else none

def symbolAt? (g : ScopeGraph) (off : Int) : Option EditorSymbol :=
  (g.references.toList.findSome? (g.referenceSymbol? off)).or
    (g.vars.toList.findSome? (variableSymbol? off))

def occurrences (g : ScopeGraph) (v : Variable) : List Span :=
  let declared := if v.isSelf then [] else [v.identifier]
  let used := v.references.filterMap fun id => (g.references[id]?).map Reference.span
  (declared ++ used).eraseDups.mergeSort fun a b => a.start ≤ b.start

/-- Every place where an undeclared name is used, in the order of the references. -/
def globalUses (g : ScopeGraph) (name : Bytes) : List Span :=
  g.references.toList.filterMap fun ref =>
    if ref.resolved.isNone && ref.name == name then some ref.span else none

end ScopeGraph

namespace Variable

/-- Whether a variable can be renamed without touching other files. -/
def isRenameable (v : Variable) : Bool := !v.isSelf && !v.hoisted && v.name != varargName

end Variable

end LuaLint
