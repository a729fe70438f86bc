import LuaLint.Scope.Event

/-!
# Name resolution

The scope graph of a chunk is built by playing its scope events one after the other. A name refers
to the latest declaration that is visible when it is used. A write to a name that is not declared
declares it after the fact: the global then has a variable of its own, and earlier reads of the name
in the same scope, or in scopes inside of it, are made to refer to that variable.
-/

namespace LuaLint

/-- A graph under construction. -/
structure Resolver where
  graph : ScopeGraph
  /-- The open scopes, innermost first. -/
  scopes : List Nat
  deriving Repr, Inhabited

namespace Resolver

/-- Nothing built and no scope open. -/
def start : Resolver := ⟨.empty, []⟩

def current (r : Resolver) : Nat := r.scopes.headD 0

def lookup? (r : Resolver) (name : Bytes) : Option Nat := r.graph.lookup? name r.scopes

/-- The scope that opens lies in the innermost one. -/
def enter (r : Resolver) (kind : ScopeKind) (span : Span) : Resolver where
  graph := { r.graph with scopes := r.graph.scopes.push ⟨kind, r.scopes.head?, span, [], []⟩ }
  scopes := r.graph.scopes.size :: r.scopes

def leave (r : Resolver) : Resolver := { r with scopes := r.scopes.tail }

def declare (r : Resolver) (d : Declaration) (hoisted : Bool) : Resolver :=
  let v : Variable := ⟨d.name, r.current, d.identifier, [d.definition], r.lookup? d.name, d.isSelf,
    hoisted, d.attrib, d.value, []⟩
  { r with graph :=
    { r.graph with
      vars := r.graph.vars.push v
      scopes := r.graph.scopes.modify r.current fun s =>
        { s with vars := s.vars ++ [r.graph.vars.size] } } }

/-- A use of a name is recorded with the variable it refers to. -/
def use (r : Resolver) (u : Use) : Resolver :=
  let id := r.graph.references.size
  let target := r.lookup? u.name
  let ref : Reference := ⟨u.name, u.span, r.current, u.usage.read, u.usage.write, u.usage.value,
    target, u.usage.indexing, none⟩
  { r with graph :=
    { r.graph with
      references := r.graph.references.push ref
      scopes := r.graph.scopes.modify r.current fun s =>
        { s with references := s.references ++ [id] }
      vars :=
        match target with
        | none => r.graph.vars
        | some v => r.graph.vars.modify v fun w =>
          { w with references := w.references ++ [id] } } }

/-- Whether a reference reads an undeclared name in a scope or inside of it. -/
def unclaimed (g : ScopeGraph) (name : Bytes) (scope : Nat) (ref : Reference) : Bool :=
  ref.read && ref.name == name && ref.resolved.isNone && g.within ref.scope scope

/-- The latest variable becomes the one that unresolved reads of its name in the innermost scope
refer to. -/
def claim (r : Resolver) (name : Bytes) : Resolver :=
  let v := r.graph.vars.size - 1
  let missing := unclaimed r.graph name r.current
  let ids := (List.range r.graph.references.size).filter fun i =>
    (r.graph.references[i]?).any missing
  { r with graph :=
    { r.graph with
      references := r.graph.references.map fun ref =>
        if missing ref then { ref with resolved := some v } else ref
      vars := r.graph.vars.modify v fun w => { w with references := ids } } }

/-- A write to a name, which declares the name unless it is declared already. -/
def assign (r : Resolver) (u : Use) : Resolver :=
  let written := r.use u
  match r.lookup? u.name with
  | some _ => written
  | none =>
    (written.declare ⟨u.name, u.span, u.span, false, none, .unknown⟩ true).claim u.name

def extend (r : Resolver) (u : Use) (definition : Span) : Resolver :=
  let written := r.use u
  match r.lookup? u.name with
  | none => written
  | some v =>
    { written with graph :=
      { written.graph with vars := written.graph.vars.modify v fun w =>
        { w with definitions := w.definitions ++ [definition] } } }

/-- The reference made in the innermost scope by the name at a place. -/
def referenceAt? (r : Resolver) (span : Span) : Option Nat :=
  ((r.graph.scopes[r.current]?).map Scope.references |>.getD []).reverse.find? fun id =>
    (r.graph.references[id]?).any fun ref => ref.span == span

/-- The references made by some arguments, given by their places, of the call with number `call`
are marked, where the first of them has the number `arg`. -/
def markArguments (r : Resolver) (call : Nat) : Nat → List (Option Span) → Resolver
  | _, [] => r
  | arg, place :: rest =>
    let marked := match place.bind r.referenceAt? with
      | none => r
      | some id =>
        { r with graph :=
          { r.graph with references := r.graph.references.modify id fun ref =>
            { ref with passedTo := some ⟨call, arg⟩ } } }
    markArguments marked call (arg + 1) rest

/-- A call statement is recorded together with the names among its arguments. -/
def call (r : Resolver) (c : CallEvent) : Resolver :=
  match r.referenceAt? c.base with
  | none => r
  | some id =>
    let recorded : Resolver :=
      { r with graph := { r.graph with calls := r.graph.calls.push ⟨c.path, id, c.span⟩ } }
    recorded.markArguments r.graph.calls.size 0 c.args

def step (r : Resolver) : ScopeEvent → Resolver
  | .enter kind span => r.enter kind span
  | .leave => r.leave
  | .declare d => r.declare d false
  | .use u => r.use u
  | .assign u => r.assign u
  | .extend u definition => r.extend u definition
  | .call c => r.call c

def run (r : Resolver) (events : List ScopeEvent) : Resolver := events.foldl step r

end Resolver

def Chunk.resolve (c : Chunk) : ScopeGraph := (Resolver.start.run c.events).graph

end LuaLint
