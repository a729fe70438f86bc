import LuaLint.Diagnostic.Basic
import LuaLint.Text.Blank

/-!
# Directives

A comment such as `-- selene: allow(unused_variable)` changes the severity of the named lints within
the piece of syntax that follows it. With a `#` before the word it holds for the whole file.
-/

namespace LuaLint

/-- What a comment line asks for. -/
structure Directive where
  wholeFile : Bool
  severity : Severity
  lints : List Bytes
  deriving DecidableEq, Repr

namespace Directive

def severityOf? (verb : Bytes) : Option Severity :=
  if verb == "allow" then some .allow
  else if verb == "warn" then some .warning
  else if verb == "deny" then some .error
  else none

/-- The directive in a comment without its marker. White space is ignored everywhere, and so is what
follows the closing parenthesis. -/
def ofLine? (line : Bytes) : Option Directive := do
  let text := line.squeeze
  let wholeFile := text.startsWith "#"
  let request ← Bytes.after? (if wholeFile then text.drop 1 else text) "selene:"
  let (verb, rest) ← request.cut? 40
  let (lints, _) ← Bytes.cut? 41 rest
  let severity ← severityOf? verb
  if lints.isEmpty then none else some ⟨wholeFile, severity, lints.split 44⟩

end Directive

end LuaLint
