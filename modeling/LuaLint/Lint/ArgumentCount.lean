import LuaLint.Library.Inference
import LuaLint.Lint.Input

/-!
# Numbers of arguments

Finds calls of functions of the same chunk that pass more arguments than the function takes. Passing
fewer is fine, since the rest are `nil`. When several functions are assigned to a variable, the most
permissive parameter list counts.
-/

namespace LuaLint

/-! ## Parameter lists -/

/-- How many arguments a function takes. -/
inductive ParamCount where
  /-- At most a number of arguments. -/
  | fixed (n : Nat)
  /-- Some named parameters followed by `...`. -/
  | atLeast (n : Nat)
  /-- Nothing but `...`. -/
  | unbounded
  deriving DecidableEq, Repr

namespace ParamCount

def ofBody (body : FuncBody) : ParamCount :=
  if !body.hasVararg then .fixed body.params.length
  else if body.params.isEmpty then .unbounded
  else .atLeast body.params.length

def named : ParamCount → Nat
  | .fixed n => n
  | .atLeast n => n
  | .unbounded => 0

/-- A parameter list that takes every call that either of two takes. -/
def merge (a b : ParamCount) : ParamCount :=
  match a, b with
  | .unbounded, _ => .unbounded
  | _, .unbounded => .unbounded
  | .fixed m, .fixed n => .fixed (max m n)
  | _, _ => .atLeast (min a.named b.named)

def accepts (args : Nat) : ParamCount → Bool
  | .fixed n => decide (args ≤ n)
  | _ => true

end ParamCount

/-- A number with the right form of the word "argument". -/
def argumentsText (n : Nat) : Bytes :=
  Bytes.ofNat n ++ if n == 1 then " argument" else " arguments"

/-! ## Variables -/

namespace LintInput

def declaredBy? (input : LintInput) (i : Ident) : Option Nat :=
  input.graph.vars.findIdx? fun v => v.identifier == i.span

def referredBy? (input : LintInput) (i : Ident) : Option Nat :=
  (input.graph.references.find? fun ref => ref.span.start == i.pos).bind Reference.resolved

end LintInput

/-- The parameter lists of variables by their numbers. The first entry of a number counts. -/
abbrev ParamTable := List (Nat × ParamCount)

namespace ParamTable

def get? (t : ParamTable) (id : Nat) : Option ParamCount := t.lookup id

def set (t : ParamTable) (id : Option Nat) (p : ParamCount) : ParamTable :=
  match id with
  | some id => (id, p) :: t
  | none => t

def join (t : ParamTable) (id : Option Nat) (p : ParamCount) : ParamTable :=
  match id with
  | some id => (id, ((t.get? id).map fun q => q.merge p).getD p) :: t
  | none => t

end ParamTable

namespace LintInput

/-- The parameter lists after a statement. A declaration sets the parameter list of its variable, an
assignment adds to it. -/
def learn (input : LintInput) (t : ParamTable) : Stmt → ParamTable
  | .localFunction _ name body => t.set (input.declaredBy? name) (.ofBody body)
  | .localAssign _ names values =>
    (names.zip values).foldl (fun t pair =>
      match pair with
      | (n, .function _ body) => t.set (input.declaredBy? n.ident) (.ofBody body)
      | _ => t) t
  | .function _ ⟨base, [], none⟩ body => t.join (input.referredBy? base) (.ofBody body)
  | .assign targets _ values =>
    (targets.zip values).foldl (fun t pair =>
      match pair with
      | (.name n, .function _ body) => t.join (input.referredBy? n) (.ofBody body)
      | _ => t) t
  | _ => t

def paramCounts (input : LintInput) : ParamTable :=
  input.chunk.nodes.foldl (fun t node =>
    match node with
    | .stmt s => input.learn t s
    | _ => t) []

/-! ## Findings -/

/-- The places where the function of a variable may come from: its definitions and the writes to
it. -/
def definedAt (input : LintInput) (id : Nat) : List Label :=
  let v := (input.graph.vars[id]?).getD default
  let writes := v.references.filterMap fun r =>
    match input.graph.references[r]? with
    | some ref => if ref.write.isSome then some ref.span else none
    | none => none
  (v.definitions ++ writes).eraseDups.map fun span =>
    (Label.ofSpan span).saying "note: function defined here"

/-- The finding about a call of a variable, if it passes too many arguments. -/
def surplus? (input : LintInput) (t : ParamTable) (c : Call) : Option Finding :=
  match c.callee, c.method with
  | .name i, none => do
    let id ← input.referredBy? i
    let params ← t.get? id
    if params.accepts c.args.length then none
    else
      let given : Bytes := (if c.maybeMore then Bytes.ofString "at least " else []) ++
        Bytes.ofNat c.args.length ++ " arguments"
      let message : Bytes := "this function takes " ++ argumentsText params.named ++ " but " ++
        given ++ " were supplied"
      let label := (Label.ofSpan c.span).saying ("expected " ++ argumentsText params.named)
      return ⟨message, label, input.definedAt id, []⟩
  | _, _ => none

def surplusArguments (input : LintInput) : List Finding :=
  let t := input.paramCounts
  input.chunk.nodes.filterMap fun node =>
    match node with
    | .expr (.call callee method form args) => input.surplus? t ⟨callee, method, form, args⟩
    | _ => none

end LintInput

end LuaLint
