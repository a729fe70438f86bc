import LuaLint.Directive.Basic
import LuaLint.Lint.Basic
import LuaLint.Lint.Input
import LuaLint.Syntax.Chain

/-!
# Copies of tables

Finds loops that copy every pair of a table into an empty one, which `table.clone` does at once.
-/

namespace LuaLint

/-! ## Copying loops -/

structure CopyLoop where
  span : Span
  source : Expr
  arrayOnly : Bool
  into : Ident

/-- The table that the header of a loop goes over, and whether only its array part. -/
def iterated? : List Expr → Option (Expr × Bool)
  | [.call (.name fn) none (.parens _ _) [arg]] =>
    if fn.name == "pairs" then some (arg, false)
    else if fn.name == "ipairs" then some (arg, true)
    else none
  | [.call _ _ _ _] => none
  | [e] => some (e, false)
  | [next, e] =>
    match next.strip with
    | .name n => if n.name == "next" then some (e, false) else none
    | _ => none
  | _ => none

def Expr.isNamed (e : Expr) (name : Bytes) : Bool := e.strip.asName?.any fun i => i.name == name

/-- The copy that a statement makes: a loop over two names whose body assigns the second under the
first to a variable. -/
def Stmt.copyLoop? : Stmt → Option CopyLoop
  | .genericFor pos [key, value] exprs (.mk _ [.assign [.element object _ index _] _ [e]]) endPos =>
    match iterated? exprs, object.strip with
    | some (source, arrayOnly), .name into =>
      if index.isNamed key.name && e.isNamed value.name then
        some ⟨⟨pos, endPos + 3⟩, source, arrayOnly, into⟩
      else none
    | _, _ => none
  | _ => none

def Stmt.isLoop : Stmt → Bool
  | .whileLoop _ _ _ _ => true
  | .repeatLoop _ _ _ _ => true
  | .numericFor _ _ _ _ _ _ _ => true
  | .genericFor _ _ _ _ _ => true
  | _ => false

def Chunk.statements (c : Chunk) : List Stmt :=
  c.nodes.filterMap fun node =>
    match node with
    | .stmt s => some s
    | _ => none

def Chunk.loopDepth (c : Chunk) (off : Nat) : Nat :=
  (c.statements.filter Stmt.isLoop).countP fun s => s.span.start < off && off < s.span.stop

/-! ## Findings -/

/-- What is said of a copy of the array part. -/
def arrayOnlyNote : Bytes :=
  "if this is a mixed table, then table.clone is not equivalent, as ipairs only goes over the " ++
  "array portion.\n" ++
  "ignore this lint with `-- selene: allow(manual_table_clone)` if this is the case."

namespace LintInput

/-- Whether the comments directly above an offset hold a directive that names this check. The
comments are given from the last to the first. -/
def directedAbove (input : LintInput) (pos : Nat) : List Comment → Bool
  | [] => false
  | comment :: earlier =>
    if comment.span.stop > pos then directedAbove input pos earlier
    else if !(input.textOf ⟨comment.span.stop, pos⟩).trim.isEmpty then false
    else
      let directives := (comment.content.split 10).filterMap Directive.ofLine?
      directives.any (fun d => d.lints.contains Lint.tableClone.name) ||
        directedAbove input comment.pos earlier

/-- The variable that the name beginning at an offset refers to. -/
def variableAt? (input : LintInput) (off : Nat) : Option Variable :=
  (input.graph.references.find? fun ref => ref.span.start == off).bind input.graph.variableOf?

/-- Whether a variable occurs between its definition and an offset, so that its table may have been
filled. -/
def usedBetween (input : LintInput) (v : Variable) (definition : Span) (off : Nat) : Bool :=
  v.references.any fun id => (input.graph.references[id]?).any fun ref =>
    ref.span.stop > definition.stop && ref.span.start < off

/-- The finding about a copying loop, if the table copied into is empty when the loop begins and is
defined at the same depth of loops. -/
def cloneFinding? (input : LintInput) (loop : CopyLoop) : Option Finding := do
  let v ← input.variableAt? loop.into.pos
  let definition ← v.definitions.head?
  if v.value != .emptyTable || input.usedBetween v definition loop.into.pos then none
  else if input.chunk.loopDepth loop.span.start != input.chunk.loopDepth definition.start then none
  else
    let interrupted := input.chunk.statements.any fun s =>
      s.start > definition.stop && s.start < loop.span.start
    let apart := interrupted ||
      input.directedAbove loop.span.start input.chunk.comments.reverse
    let span := if apart then loop.span else ⟨definition.start, loop.span.stop⟩
    let others :=
      if apart then [(Label.ofSpan definition).saying "remove this definition"] else []
    let hint : Bytes := "try `local " ++ loop.into.name ++ " = table.clone(" ++
      (input.textOf loop.source.span).trim ++ ")`"
    return ((Finding.about span "manual implementation of table.clone").alsoAt others).noting
      (hint :: if loop.arrayOnly then [arrayOnlyNote] else [])

/-- The loops that copy a table into an empty one, provided that the standard library can copy
tables. -/
def tableClones (input : LintInput) : List Finding :=
  if (input.library.find? ["table", "clone"]).isNone then []
  else (input.chunk.statements.filterMap Stmt.copyLoop?).filterMap input.cloneFinding?

end LintInput

end LuaLint
