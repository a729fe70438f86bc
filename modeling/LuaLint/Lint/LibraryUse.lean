import LuaLint.Library.Builtin
import LuaLint.Library.Inference
import LuaLint.Lint.Input
import LuaLint.Lint.NameUse

/-!
# Uses of the standard library

Compares every use of a global with the description of the standard library: fields that do not
exist, writes to what must not be written, and calls with the wrong syntax, number or types of
arguments.
-/

namespace LuaLint

namespace Field

def isWritable (f : Field) : Bool :=
  match f.shape with
  | .any => true
  | .property w => w.canOverride
  | _ => false

def takesFields (f : Field) : Bool :=
  match f.shape with
  | .any => true
  | .property w => w.canAddFields
  | _ => false

end Field

namespace LintInput

/-! ## Fields -/

def fieldsAlong (input : LintInput) (path : List Bytes) : List Field :=
  ((List.range path.length).map fun n => input.library.find? (path.take (n + 1))).takeWhile
    Option.isSome |>.filterMap id

/-- The finding about a path below a known global that does not exist, unless something on the way
takes any field. -/
def missingField (input : LintInput) (path : List Bytes) (span : Span) : List Finding :=
  let global := path.headD []
  if (input.library.find? path).isSome || !input.library.globalHasFields global then []
  else if (input.fieldsAlong path.dropLast).any Field.takesFields then []
  else
    let message : Bytes := "standard library global `" ++ Bytes.join "." path.dropLast ++
      "` does not contain the field `" ++ path.getLastD [] ++ "`"
    [(Finding.about span message).noting (Library.possibleNotes path input.chosenStd)]

def badValue (input : LintInput) (e : Expr) : List Finding :=
  if input.isLocalAt e.start then []
  else match e.staticPath? with
    | some path => input.missingField path e.span
    | none => []

/-! ## Writes -/

/-- The findings about an assignment target. Writes into the result of a call are not checked. -/
def badTarget (input : LintInput) (e : Expr) : List Finding :=
  if input.isLocalAt e.start then []
  else match e with
    | .name i =>
      match input.library.find? [i.name] with
      | some f =>
        if f.isWritable then []
        else [.about e.span ("standard library global `" ++ i.name ++ "` is not overridable")]
      | none => []
    | _ =>
      match e.staticPath? with
      | none => []
      | some path =>
        match input.library.find? path with
        | none => input.missingField path e.span
        | some f =>
          if f.isWritable then []
          else [.about e.span
            ("standard library global `" ++ Bytes.join "." path ++ "` is not writable")]

/-! ## Calls -/

def wrongSyntax (span : Span) (path : List Bytes) (isMethodCall : Bool) : Finding :=
  let receiver := Bytes.join "." path.dropLast
  let method := path.getLastD []
  let used : Bytes := if isMethodCall then ":" else "."
  let right : Bytes := if isMethodCall then "." else ":"
  let problem : Bytes := if isMethodCall then "is not a method" else "is a method"
  (Finding.about span
    ("standard library function `" ++ receiver ++ used ++ method ++ "` " ++ problem)).noting
      ["try: " ++ receiver ++ right ++ method ++ "(...)"]

def wrongCount (span : Span) (name : Bytes) (check : CountCheck) : List Finding :=
  let unreached := match check.missing with
    | none => []
    | some reason =>
      let message : Bytes :=
        "standard library function `" ++ name ++ "` requires use of the vararg"
      [(Finding.about span message).noting (if reason.isEmpty then [] else [reason])]
  let counted :=
    if check.wrong then
      [Finding.about span ("standard library function `" ++ name ++ "` requires " ++
        Bytes.ofNat check.expected ++ " parameters, " ++ Bytes.ofNat check.passed ++ " passed")]
    else []
  unreached ++ counted

/-- Whether a passed value is fine for a declared argument. The value `nil` may always be passed for
an optional one. -/
def isFine (declared : Argument) (passed : PassedType) : Bool :=
  declared.type == .vararg || (!declared.requirement.isRequired && passed == .some .nil) ||
    passed.fits declared.type

def wrongTypes (name : Bytes) (declared : List Argument) (passed : List PassedArgument) :
    List Finding :=
  (declared.zip passed).filterMap fun (want, given) => do
    let type ← given.type
    if isFine want type then none
    else
      let label := (Label.ofSpan given.span).saying
        ("expected `" ++ want.type.label ++ "`, received `" ++ type.type.label ++ "`")
      return ⟨"use of standard_library function `" ++ name ++ "` is incorrect", label, [], []⟩

def badCall (input : LintInput) (c : Call) : List Finding :=
  if input.isLocalAt c.span.start then []
  else match c.path? with
    | none => []
    | some path =>
      let name := Bytes.join "." path
      match input.library.find? path with
      | none => input.missingField path c.calleeSpan
      | some f =>
        match f.shape with
        | .any => []
        | .function fn =>
          if fn.method != c.method.isSome then [wrongSyntax c.span path c.method.isSome]
          else wrongCount c.span name (countArguments fn.args c) ++
            wrongTypes name fn.args c.passed
        | _ => [.about c.span ("standard library field `" ++ name ++ "` is not a function")]

/-- The uses of the standard library that its description rules out. -/
def libraryMisuses (input : LintInput) : List Finding :=
  input.chunk.nameUses.flatMap fun use =>
    match use with
    | .value e => input.badValue e
    | .target e => input.badTarget e
    | .call c => input.badCall c

end LintInput

end LuaLint
