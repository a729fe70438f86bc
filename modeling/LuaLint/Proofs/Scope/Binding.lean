import LuaLint.Syntax.Chain
import LuaLint.Scope.Graph

/-!
# Lexical scoping

Which declaration each occurrence of a name in a chunk refers to, by the rules of the language and
without any reference to how names are resolved. An environment goes down the tree: a piece of
syntax is read in the environment of the place where it stands, and a statement hands the
environment that it leaves to those that follow it.
-/

namespace LuaLint

/-! ## Environments -/

/-- The declaration that each name refers to, given by its place. The variable arguments of a
function go by the name `...`, which no other variable can have. -/
abbrev Env := Bytes → Option Span

namespace Env

def empty : Env := fun _ => none

def declare (env : Env) (name : Bytes) (place : Span) : Env :=
  fun n => if n = name then some place else env n

def declareAll (env : Env) (names : List Ident) : Env :=
  names.foldl (fun env i => env.declare i.name i.span) env

/-- The variable arguments of a function are out of reach in the functions inside of it. -/
def inFunction (env : Env) : Env := fun n => if n = varargName then none else env n

/-- The environment of a function body. A method has a `self`, which stands where its name does. -/
def parameters (env : Env) (method : Option Ident) (params : List Ident) (vararg : Option Nat) :
    Env :=
  let known := method.toList.foldl (fun env m => env.declare "self" m.span) env.inFunction
  (known.declareAll params).declareAll (vararg.toList.map fun pos => ⟨pos, varargName⟩)

end Env

/-- The environment after a statement. A `local` statement declares its names as a whole. -/
def Stmt.scope (env : Env) : Stmt → Env
  | .localAssign _ names _ => env.declareAll (names.map LocalName.ident)
  | .localFunction _ n _ => env.declare n.name n.span
  | _ => env

def Block.scope (env : Env) (b : Block) : Env := b.stmts.foldl Stmt.scope env

/-! ## Occurrences -/

/-- An occurrence of a name. -/
structure Binding where
  use : Span
  decl : Option Span
  deriving DecidableEq, Repr

/-- A name that takes a value where it is declared refers to its own declaration. -/
def Binding.own (i : Ident) : Binding := ⟨i.span, some i.span⟩

mutual

def Expr.bindings (env : Env) : Expr → List Binding
  | .nil _ => []
  | .bool _ _ => []
  | .number _ _ => []
  | .string _ _ _ => []
  | .vararg pos => [⟨(Expr.vararg pos).span, env varargName⟩]
  | .name i => [⟨i.span, env i.name⟩]
  | .function _ body => body.bindings env none
  | .table _ fields _ => TableField.bindings env fields
  | .binary _ _ left right => left.bindings env ++ right.bindings env
  | .unary _ _ operand => operand.bindings env
  | .paren _ inner _ => inner.bindings env
  | .field object _ => object.bindings env
  | .element object _ key _ => object.bindings env ++ key.bindings env
  | .call callee _ _ args => callee.bindings env ++ Expr.bindingsOf env args

def Expr.bindingsOf (env : Env) : List Expr → List Binding
  | [] => []
  | e :: rest => e.bindings env ++ Expr.bindingsOf env rest

def TableField.bindings (env : Env) : List TableField → List Binding
  | [] => []
  | .positional value :: rest => value.bindings env ++ TableField.bindings env rest
  | .named _ value :: rest => value.bindings env ++ TableField.bindings env rest
  | .keyed _ key value :: rest =>
    key.bindings env ++ value.bindings env ++ TableField.bindings env rest

def FuncBody.bindings (env : Env) (method : Option Ident) : FuncBody → List Binding
  | .mk _ params vararg _ body _ => body.bindings (env.parameters method params vararg)

def Stmt.bindings (env : Env) : Stmt → List Binding
  | .localAssign _ names values =>
    -- The values do not see the names.
    Expr.bindingsOf env values ++ (names.zip values).map fun p => .own p.1.ident
  | .assign targets _ values => Expr.bindingsOf env targets ++ Expr.bindingsOf env values
  | .call callee _ _ args => callee.bindings env ++ Expr.bindingsOf env args
  | .doBlock _ body _ => body.bindings env
  | .whileLoop _ cond body _ => cond.bindings env ++ body.bindings env
  -- The condition of a `repeat` loop sees the locals of its body.
  | .repeatLoop _ body _ cond => body.bindings env ++ cond.bindings (body.scope env)
  | .ifThen _ cond _ body arms otherwise _ =>
    cond.bindings env ++ body.bindings env ++ ElseIf.bindings env arms ++ otherwise.bindings env
  -- Loop variables are seen by the body alone.
  | .numericFor _ var start limit step body _ =>
    start.bindings env ++ limit.bindings env ++
      (match step with
      | none => []
      | some e => e.bindings env) ++
      .own var :: body.bindings (env.declare var.name var.span)
  | .genericFor _ names exprs body _ =>
    Expr.bindingsOf env exprs ++ names.map .own ++ body.bindings (env.declareAll names)
  | .function _ n body => ⟨n.base.span, env n.base.name⟩ :: body.bindings env n.method
  -- A local function sees itself.
  | .localFunction _ n body => body.bindings (env.declare n.name n.span) none
  | .ret _ values => Expr.bindingsOf env values
  | .brk _ => []
  | .goto _ _ => []
  | .label _ _ _ => []

def Stmt.bindingsOf (env : Env) : List Stmt → List Binding
  | [] => []
  | s :: rest => s.bindings env ++ Stmt.bindingsOf (s.scope env) rest

def ElseIf.bindings (env : Env) : List ElseIf → List Binding
  | [] => []
  | .mk _ cond _ body :: rest =>
    cond.bindings env ++ body.bindings env ++ ElseIf.bindings env rest

def ElsePart.bindings (env : Env) : ElsePart → List Binding
  | .absent => []
  | .present _ body => body.bindings env

def Block.bindings (env : Env) : Block → List Binding
  | .mk _ stmts => Stmt.bindingsOf env stmts

end

namespace Chunk

def bindings (c : Chunk) : List Binding := c.block.bindings .empty

/-- The occurrence of a name at a place refers to a declaration, or is that of a global. -/
def Binds (c : Chunk) (use : Span) (decl : Option Span) : Prop := ⟨use, decl⟩ ∈ c.bindings

end Chunk

end LuaLint
