import LuaLint.Lint.Input

/-!
# Empty conditionals

Finds arms of conditionals without statements.
-/

namespace LuaLint

/-- Where an arm that is followed by others ends: at the next arm, at the `else` or at the `end`. -/
def nextArm (arms : List ElseIf) (otherwise : ElsePart) (endPos : Nat) : Nat :=
  match arms, otherwise with
  | .mk pos _ _ _ :: _, _ => pos
  | [], .present pos _ => pos
  | [], .absent => endPos

def emptyElseIfs (otherwise : ElsePart) (endPos : Nat) : List ElseIf → List (Span × Bytes)
  | [] => []
  | .mk pos _ _ body :: rest =>
    let later := emptyElseIfs otherwise endPos rest
    if body.stmts.isEmpty then
      (⟨pos, nextArm rest otherwise endPos⟩, "empty elseif block") :: later
    else later

/-- The arms of a conditional without statements, each with its range and what is said of it. -/
def Stmt.emptyArms : Stmt → List (Span × Bytes)
  | .ifThen pos _ _ body arms otherwise endPos =>
    let stop := endPos + 3
    (if body.stmts.isEmpty then [(⟨pos, stop⟩, ("empty if block" : Bytes))] else []) ++
      emptyElseIfs otherwise endPos arms ++
      (match otherwise with
      | .present elsePos elseBody =>
        if elseBody.stmts.isEmpty then [(⟨elsePos, stop⟩, "empty else block")] else []
      | .absent => [])
  | _ => []

def Chunk.hasCommentIn (c : Chunk) (span : Span) : Bool :=
  c.comments.any fun comment => span.touches comment.span.stop

/-- The arms of conditionals without statements. With `commentsCount` an arm with a comment is not
empty. -/
def LintInput.emptyConditionals (input : LintInput) (commentsCount : Bool) : List Finding :=
  input.chunk.nodes.flatMap fun node =>
    match node with
    | .stmt s =>
      (s.emptyArms.filter fun arm => !(commentsCount && input.chunk.hasCommentIn arm.1)).map
        fun (span, message) => .about span message
    | _ => []

end LuaLint
