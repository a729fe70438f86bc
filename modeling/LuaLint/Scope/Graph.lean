import LuaLint.Source.Span

/-!
# Scope graphs

The scope graph of a chunk holds its lexical scopes, the variables declared in them, and every read
or write of a name, each occurrence linked to the variable that it refers to. Scopes, variables,
references and call statements are numbered from zero in the order in which they are met, and refer
to each other by those numbers. The numbers have no bound here: a handle of 32 bits, and the failure
when there are no more of them, are left out.
-/

namespace LuaLint

/-! ## Scopes -/

inductive ScopeKind where
  | file
  | function
  | doBlock
  | loop
  | branch
  deriving DecidableEq, Repr, Inhabited

def varargName : Bytes := "..."

/-- The names that are not looked up outside of a scope of this kind. The `...` of an outer function
is not visible in an inner one. -/
def ScopeKind.blocked : ScopeKind → List Bytes
  | .function => [varargName]
  | _ => []

structure Scope where
  kind : ScopeKind
  parent : Option Nat
  span : Span
  /-- The variables declared directly in it, in order of declaration. -/
  vars : List Nat
  references : List Nat
  deriving DecidableEq, Repr, Inhabited

/-! ## Variables -/

/-- What is known of the value that a variable is declared with. -/
inductive InitialValue where
  | unknown
  | emptyTable
  | filledTable
  deriving DecidableEq, Repr, Inhabited

/-- A declared name. -/
structure Variable where
  name : Bytes
  scope : Nat
  identifier : Span
  /-- The ranges of the declaring constructs. A statement `function t.f()` adds one to `t`. -/
  definitions : List Span
  /-- The variable of the same name that was visible before this one. -/
  shadowed : Option Nat
  isSelf : Bool
  /-- Whether it stands for a global, declared by its first write. -/
  hoisted : Bool
  attrib : Option Bytes
  value : InitialValue
  references : List Nat
  deriving DecidableEq, Repr, Inhabited

/-! ## References -/

inductive Write where
  | assign
  /-- A field is defined, as in `function t.f()`. -/
  | extend
  deriving DecidableEq, Repr, Inhabited

/-- A static index that follows a name: `y` in `x.y` and in `x["y"]`. -/
structure IndexEntry where
  name : Bytes
  span : Span
  deriving DecidableEq, Repr, Inhabited

structure CallArgument where
  call : Nat
  arg : Nat
  deriving DecidableEq, Repr, Inhabited

/-- A single occurrence of a name. -/
structure Reference where
  name : Bytes
  span : Span
  scope : Nat
  read : Bool
  write : Option Write
  value : Option Span
  /-- The variable that the name refers to, if it is declared. -/
  resolved : Option Nat
  /-- The static indexes that follow the name, up to the first call or dynamic index. -/
  indexing : List IndexEntry
  passedTo : Option CallArgument
  deriving DecidableEq, Repr, Inhabited

def Reference.path (r : Reference) : List Bytes := r.name :: r.indexing.map IndexEntry.name

structure CallRecord where
  path : List Bytes
  /-- The reference made by the first of those names. -/
  reference : Nat
  span : Span
  deriving DecidableEq, Repr, Inhabited

/-! ## Graphs -/

structure ScopeGraph where
  /-- The scopes. The first is that of the chunk. -/
  scopes : Array Scope
  vars : Array Variable
  references : Array Reference
  calls : Array CallRecord
  deriving Repr, Inhabited

namespace ScopeGraph

def empty : ScopeGraph := ⟨#[], #[], #[], #[]⟩

/-- A scope followed by the scopes around it, at most `fuel` of them. -/
def ancestorsUpTo (g : ScopeGraph) : Nat → Nat → List Nat
  | 0, _ => []
  | fuel + 1, id =>
    match g.scopes[id]? with
    | none => []
    | some s => id :: (s.parent.map (ancestorsUpTo g fuel)).getD []

/-- A scope followed by the scopes around it, from the inside out. A parent has a smaller number
than its child, so the number bounds how many there are. -/
def ancestors (g : ScopeGraph) (id : Nat) : List Nat := g.ancestorsUpTo (id + 1) id

def within (g : ScopeGraph) (scope outer : Nat) : Bool := (g.ancestors scope).contains outer

/-- The latest variable of a name among the variables with the given numbers. -/
def declared? (g : ScopeGraph) (name : Bytes) (ids : List Nat) : Option Nat :=
  ids.reverse.find? fun id => (g.vars[id]?).any fun v => v.name == name

/-- The variable that a name refers to when the given scopes are open, innermost first. The search
ends at a scope that blocks the name. -/
def lookup? (g : ScopeGraph) (name : Bytes) : List Nat → Option Nat
  | [] => none
  | id :: outer =>
    match g.scopes[id]? with
    | none => none
    | some s =>
      match g.declared? name s.vars with
      | some v => some v
      | none => if s.kind.blocked.contains name then none else lookup? g name outer

def visible? (g : ScopeGraph) (scope : Nat) (name : Bytes) : Option Nat :=
  g.lookup? name (g.ancestors scope)

end ScopeGraph

end LuaLint
