import LuaLint.Lint.MustUse

/-!
# Unused variables

Finds variables whose value is never read. Writing into a table that nothing reads is no use of it,
and neither is passing it to a function of the standard library that only writes to it.
-/

namespace LuaLint

inductive VariableUse where
  | read
  | replaced
  /-- It writes something that nothing reads back. -/
  | unread (label : Label)
  deriving DecidableEq, Repr

namespace LintInput

/-- Whether a place among the arguments of a call belongs to a function of the standard library that
only writes there. -/
def onlyWritesTo (input : LintInput) (place : CallArgument) : Option CallRecord := do
  let call ← input.graph.calls[place.call]?
  let fn ← input.calledFunction? call
  let declared ← fn.args[place.arg]?
  if declared.observes == .write then some call else none

def useBy (input : LintInput) (v : Variable) (ref : Reference) : VariableUse :=
  let isTable := v.value != .unknown
  if ref.write.isSome && isTable && ref.indexing.length == 1 then
    .unread ((Label.ofSpan ref.span).saying ("`" ++ v.name ++ "` is only getting written to"))
  else if ref.write.isSome && !ref.read then .replaced
  else if !isTable then .read
  else match ref.passedTo.bind input.onlyWritesTo with
    | some call =>
      .unread ((Label.ofSpan ref.span).saying
        ("`" ++ Bytes.join "." call.path ++ "` only writes to `" ++ v.name ++ "`"))
    | none => .read

def usesOf (input : LintInput) (v : Variable) : List VariableUse :=
  v.references.filterMap fun id => (input.graph.references[id]?).map (input.useBy v)

def selfNotes : List Bytes :=
  ["`self` is implicitly defined when defining a method",
    "if you don't need it, consider using `.` instead of `:`"]

def unusedFinding? (input : LintInput) (allowUnusedSelf : Bool) (ignore : Option Pattern)
    (v : Variable) : Option Finding :=
  let uses := input.usesOf v
  if v.name == varargName || input.library.hasGlobal v.name || matchesName ignore v.name then none
  else if uses.contains .read || (v.isSelf && allowUnusedSelf) then none
  else
    let done : Bytes :=
      if uses.isEmpty && !v.hoisted then " is defined, but never used"
      else " is assigned a value, but never used"
    let labels := uses.filterMap fun use =>
      match use with
      | .unread label => some label
      | _ => none
    some (((Finding.about v.identifier (v.name ++ done)).alsoAt labels).noting
      (if v.isSelf then selfNotes else []))

def unusedVariables (input : LintInput) (allowUnusedSelf : Bool) (ignore : Option Pattern) :
    List Finding :=
  input.graph.vars.toList.filterMap (input.unusedFinding? allowUnusedSelf ignore)

end LintInput

end LuaLint
