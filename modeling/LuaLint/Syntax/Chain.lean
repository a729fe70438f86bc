import LuaLint.Syntax.Basic

/-!
# Chains

An expression such as `a.b[c]:d()` is a chain: a base followed by links, each of which is a field,
an element or a call. Most checks look at the base name and at the names along the chain.
-/

namespace LuaLint

namespace Expr

def strip : Expr → Expr
  | .paren _ inner _ => inner.strip
  | e => e

def base : Expr → Expr
  | .field object _ => object.base
  | .element object _ _ _ => object.base
  | .call callee _ _ _ => callee.base
  | e => e

/-- The links of a chain in source order, each given as the chain that ends with it. -/
def links : Expr → List Expr
  | .field object n => object.links ++ [.field object n]
  | .element object lbrack key rbrack => object.links ++ [.element object lbrack key rbrack]
  | .call callee method form args => callee.links ++ [.call callee method form args]
  | _ => []

/-- Whether an expression is a call that is not wrapped in parentheses. -/
def isCall : Expr → Bool
  | .call _ _ _ _ => true
  | _ => false

def isVararg : Expr → Bool
  | .vararg _ => true
  | _ => false

/-- Whether an expression may stand for any number of values. -/
def isOpen (e : Expr) : Bool := e.isCall || e.isVararg

def isEmptyTable (e : Expr) : Bool :=
  match e.strip with
  | .table _ [] _ => true
  | _ => false

/-- The names added by links, up to and including the first call. A field by key has no name. -/
def pathAlong : List Expr → Option (List Bytes)
  | [] => some []
  | .field _ n :: rest => (pathAlong rest).map (n.name :: ·)
  | .call _ method _ _ :: _ => some (method.toList.map Ident.name)
  | _ :: _ => none

/-- The names along a chain that begins with a variable, up to and including its first call, whose
method name is part of the path. -/
def namePath? (e : Expr) : Option (List Bytes) :=
  match e.base with
  | .name i => (pathAlong e.links).map (i.name :: ·)
  | _ => none

def hasCall (e : Expr) : Bool := e.links.any isCall

def asName? : Expr → Option Ident
  | .name i => some i
  | _ => none

end Expr

def Call.isFirst (c : Call) : Bool := !c.callee.hasCall

end LuaLint
