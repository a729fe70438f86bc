import LuaLint.Scope.Graph

/-!
# Questions to a scope graph

What an editor and the checks ask of a resolved chunk: the name and the scope at an offset, the
function around a scope, and the names that are read without being declared.
-/

namespace LuaLint

namespace ScopeGraph

/-- The number of the first reference whose name touches an offset. The offset just past a name
counts: a cursor stands there after the name was typed. -/
def referenceAt? (g : ScopeGraph) (off : Int) : Option Nat :=
  g.references.findIdx? fun ref => ref.span.touches off

/-- The innermost scope that contains an offset: among the shortest, the latest. Outside of every
scope it is the scope of the chunk. -/
def scopeAt (g : ScopeGraph) (off : Int) : Nat :=
  let width (id : Nat) : Int := ((g.scopes[id]?).map fun s => s.span.length).getD 0
  (List.range g.scopes.size).foldl (fun best id =>
    match g.scopes[id]? with
    | some s => if s.span.covers off && s.span.length ≤ width best then id else best
    | none => best) 0

def functionAround? (g : ScopeGraph) (scope : Nat) : Option Nat :=
  (g.ancestors scope).find? fun id => (g.scopes[id]?).any fun s => s.kind == .function

def variableOf? (g : ScopeGraph) (ref : Reference) : Option Variable :=
  ref.resolved.bind fun id => g.vars[id]?

/-- The names of the references that read an undeclared name, in ascending order. -/
def globals (g : ScopeGraph) : List Bytes :=
  Bytes.sort ((g.references.toList.filter fun ref => ref.read && ref.resolved.isNone).map
    Reference.name).eraseDups

end ScopeGraph

end LuaLint
