import LuaLint.Lint.Input
import LuaLint.Lint.NameUse

/-!
# Deprecated names

Finds uses of parts of the standard library that should not be used any more.
-/

namespace LuaLint

/-- Whether a path may be used although it is deprecated. The name `*` stands for any name, and a
path allows everything below it. -/
def Lint.isAllowedPath (allowed : List (List Bytes)) (path : List Bytes) : Bool :=
  allowed.any fun words =>
    decide (words.length ≤ path.length) &&
      (words.zip path).all fun (word, name) => word == Bytes.ofString "*" || word == name

namespace LintInput

/-- The findings about a use of a path: one for every deprecated field along it. `what` says how it
is used and `args` holds the arguments as they are written. -/
def deprecatedAlong (input : LintInput) (allowed : List (List Bytes)) (span : Span) (what : Bytes)
    (path args : List Bytes) : List Finding :=
  if Lint.isAllowedPath allowed path then []
  else (List.range path.length).filterMap fun n => do
    let field ← input.library.find? (path.take (n + 1))
    let note ← field.deprecated
    let hint : List Bytes := (note.tryInstead? args).toList.map (Bytes.ofString "try: " ++ ·)
    let message : Bytes :=
      "standard library " ++ what ++ " `" ++ Bytes.join "." path ++ "` is deprecated"
    return (Finding.about span message).noting (note.message :: hint)

def deprecatedUses (input : LintInput) (allowed : List (List Bytes)) : List Finding :=
  input.chunk.nameUses.flatMap fun use =>
    match use with
    | .value e =>
      if input.isLocalAt e.start then []
      else match e.staticPath? with
        | some path => input.deprecatedAlong allowed e.span "expression" path []
        | none => []
    | .call c =>
      if input.isLocalAt c.span.start then []
      else match c.path? with
        | some path =>
          input.deprecatedAlong allowed c.span "function" path
            (c.args.map fun e => input.textOf e.span)
        | none => []
    | .target _ => []

end LintInput

end LuaLint
