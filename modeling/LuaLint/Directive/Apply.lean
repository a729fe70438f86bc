import LuaLint.Directive.Basic
import LuaLint.Syntax.Outline
import LuaLint.Text.Distance

/-!
# Applying directives

The directives of a chunk act on the findings about it. A directive holds for the outermost piece of
syntax that begins with the first token after its comment. Where several of them name a lint, the
one that began last decides; the directives for the whole file come after all others.

A line sweeps over the findings in source order. It carries a stack of the directives in force,
which grows where the range of one begins and shrinks where it ends.
-/

namespace LuaLint

/-! ## Rules -/

structure Rule where
  lint : Bytes
  severity : Severity
  wholeFile : Bool
  comment : Span
  range : Span
  deriving DecidableEq, Repr

namespace Rule

def code : Bytes := "invalid_lint_filter"

def finding (message : Bytes) (comment : Span) (secondary : List Label) (notes : List Bytes) :
    Diagnostic :=
  ⟨⟨message, .ofSpan comment, secondary, notes⟩, code, .error⟩

def unknownLint (known : List Bytes) (comment : Span) (lint : Bytes) : Diagnostic :=
  finding ("no lint named `" ++ lint ++ "` exists") comment []
    ((lint.nearest? known).toList.map fun name => "did you mean `" ++ name ++ "`?")

end Rule

namespace Chunk

/-- The range that a directive holds for: the outermost node, blocks aside, that begins with the
first token after the comment, or else that token alone. -/
def rangeAfter (c : Chunk) (comment : Span) : Span :=
  match c.tokenAfter? comment.stop with
  | none => ⟨c.size, c.size⟩
  | some token =>
    match c.nodes.find? fun n => !n.isBlock && n.span.start == token.start with
    | some node => node.span
    | none => token

def rulesOf (c : Chunk) (known : List Bytes) (comment : Span) (d : Directive) :
    List (Rule ⊕ Diagnostic) :=
  let range := if d.wholeFile then ⟨0, c.size⟩ else c.rangeAfter comment
  d.lints.map fun lint =>
    if known.contains lint then .inl ⟨lint, d.severity, d.wholeFile, comment, range⟩
    else .inr (Rule.unknownLint known comment lint)

/-- The rules that the comments of a chunk lay down, and findings for unknown lints. A comment after
code on its line lays down nothing. -/
def rules (c : Chunk) (known : List Bytes) : List (Rule ⊕ Diagnostic) :=
  (c.comments.filter fun comment => !comment.trailing).flatMap fun comment =>
    ((comment.content.split 10).filterMap Directive.ofLine?).flatMap
      (c.rulesOf known comment.span)

end Chunk

/-! ## Acceptance -/

namespace Rule

/-- The finding about a rule for the whole file that stands after the first statement. -/
def tooLate (first : Span) (r : Rule) : Diagnostic :=
  finding "global filters must come before any code" r.comment
    [(Label.ofSpan first).saying "global filter must be before this"] []

/-- The finding about a rule for the same lint and range as an earlier one. -/
def conflict (earlier r : Rule) : Diagnostic :=
  finding "filter conflicts with a previous one for the same code" r.comment
    [(Label.ofSpan earlier.comment).saying "conflicts with this"] []

/-- Whether a rule for the whole file stands after the beginning of the code. -/
def isLate (first : Option Span) (r : Rule) : Bool :=
  r.wholeFile && first.any fun f => f.start ≤ r.comment.start

/-- The rules that take effect, in order, and findings about the others and about conflicts, which
take effect all the same. `accepted` holds the earlier rules that take effect. -/
def accept (first : Option Span) (accepted : List Rule) : List Rule → List Rule × List Diagnostic
  | [] => ([], [])
  | r :: rest =>
    if r.isLate first then
      let (kept, findings) := accept first accepted rest
      (kept, tooLate (first.getD ⟨0, 0⟩) r :: findings)
    else
      let clashes := accepted.filter fun p => p.range == r.range && p.lint == r.lint
      let (kept, findings) := accept first (accepted ++ [r]) rest
      (r :: kept, clashes.map (fun p => conflict p r) ++ findings)

end Rule

/-! ## The sweep -/

inductive RuleStep where
  | enter (rule : Rule)
  /-- The range of some rule ends at an offset. -/
  | leave (off : Nat)
  deriving DecidableEq, Repr

namespace RuleStep

def offset : RuleStep → Nat
  | .enter rule => rule.range.start
  | .leave off => off

/-- Whether a change may stand before another: by offset, ends before beginnings, and of two that
begin together the one with the larger range. -/
def notAfter (a b : RuleStep) : Bool :=
  if a.offset != b.offset then a.offset < b.offset
  else match a, b with
    | .leave _, _ => true
    | .enter _, .leave _ => false
    | .enter x, .enter y => y.range.stop ≤ x.range.stop

/-- The changes that some rules bring about, in order. A rule with an empty range brings about none,
and neither does one for the whole file. -/
def schedule (rules : List Rule) : List RuleStep :=
  let changing := rules.filter fun r => !r.wholeFile && r.range.length != 0
  (changing.flatMap fun r => [.enter r, .leave r.range.stop]).mergeSort notAfter

/-- The stack of the rules in force after a change, the innermost first. -/
def act (stack : List Rule) : RuleStep → List Rule
  | .enter rule => rule :: stack
  | .leave _ => stack.drop 1

end RuleStep

/-- The finding after a rule has acted on it, or nothing when the rule allows it. -/
def Rule.judge (rule : Option Rule) (d : Diagnostic) : Option Diagnostic :=
  match rule with
  | none => some d
  | some r => if r.severity == .allow then none else some { d with severity := r.severity }

/-- What remains of findings in source order. `general` holds the rules for the whole file, the last
one first, and `stack` the other rules in force, the innermost first. -/
def sweep (general : List Rule) : List Rule → List RuleStep → List Diagnostic → List Diagnostic
  | _, _, [] => []
  | stack, steps, d :: rest =>
    let due := steps.takeWhile fun s => (s.offset : Int) ≤ d.primary.start
    let ahead := steps.dropWhile fun s => (s.offset : Int) ≤ d.primary.start
    let stack := due.foldl RuleStep.act stack
    let rule := (stack ++ general).find? fun r => r.lint == d.code
    (Rule.judge rule d).toList ++ sweep general stack ahead rest

namespace Chunk

/-- The findings after the directives of a chunk have acted on them, followed by findings about the
directives. `known` lists the lints that these may name. -/
def applyDirectives (c : Chunk) (known : List Bytes) (ds : List Diagnostic) : List Diagnostic :=
  let laid := c.rules known
  let unknown := laid.filterMap Sum.getRight?
  let rules := laid.filterMap Sum.getLeft?
  if rules.isEmpty then ds ++ unknown
  else
    let (accepted, findings) := Rule.accept c.firstCode? [] rules
    let inOrder := ds.mergeSort fun a b => a.primary.start ≤ b.primary.start
    let general := (accepted.filter Rule.wholeFile).reverse
    sweep general [] (RuleStep.schedule accepted) inOrder ++ unknown ++ findings

end Chunk

end LuaLint
