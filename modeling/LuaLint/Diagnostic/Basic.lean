import LuaLint.Source.Span
import LuaLint.Text.Quoted

/-!
# Diagnostics

A diagnostic is one finding about a source: what was found, where, and how serious it is. It points
at byte ranges; lines and columns are worked out when it is shown.
-/

namespace LuaLint

/-! ## Severities -/

/-- How serious a finding is. -/
inductive Severity where
  | allow
  | warning
  | error
  /-- The finding has no rank of its own. -/
  | unranked
  deriving DecidableEq, Repr, Inhabited

namespace Severity

def label : Severity → Bytes
  | .allow => "allow"
  | .warning => "warning"
  | .error => "error"
  | .unranked => "unknown"

def ofName? (word : Bytes) : Option Severity :=
  if word == "allow" then some .allow
  else if word == "warn" || word == "warning" then some .warning
  else if word == "deny" || word == "error" then some .error
  else none

def unknownName (word : Bytes) : Bytes :=
  "unknown severity " ++ Quoted.text word ++ ", expected allow, warn or deny"

end Severity

/-! ## Findings -/

/-- A range of a source with a message. The ends may lie outside the source. -/
structure Label where
  start : Int
  stop : Int
  message : Bytes
  deriving DecidableEq, Repr, Inhabited

namespace Label

def ofSpan (span : Span) : Label := ⟨span.start, span.stop, []⟩

def saying (label : Label) (message : Bytes) : Label := { label with message }

end Label

/-- What a check has found. -/
structure Finding where
  message : Bytes
  primary : Label
  secondary : List Label
  notes : List Bytes
  deriving DecidableEq, Repr, Inhabited

namespace Finding

def about (span : Span) (message : Bytes) : Finding := ⟨message, .ofSpan span, [], []⟩

def noting (f : Finding) (notes : List Bytes) : Finding := { f with notes }

def alsoAt (f : Finding) (secondary : List Label) : Finding := { f with secondary }

end Finding

structure Diagnostic extends Finding where
  code : Bytes
  severity : Severity
  deriving DecidableEq, Repr, Inhabited

namespace Diagnostic

/-! ## Order and counts -/

/-- Whether a diagnostic may stand before another: by the start of the primary label, then by its
end, then by code. -/
def notAfter (a b : Diagnostic) : Bool :=
  if a.primary.start != b.primary.start then a.primary.start < b.primary.start
  else if a.primary.stop != b.primary.stop then a.primary.stop < b.primary.stop
  else Bytes.notAfter a.code b.code

/-- Diagnostics by position and code. Those that agree in both keep their order. -/
def sort (ds : List Diagnostic) : List Diagnostic := ds.mergeSort notAfter

end Diagnostic

/-- How many errors and warnings there are. -/
structure Tally where
  errors : Nat
  warnings : Nat
  deriving DecidableEq, Repr, Inhabited

namespace Tally

def of (ds : List Diagnostic) : Tally :=
  ⟨ds.countP (·.severity == .error), ds.countP (·.severity == .warning)⟩

def add (a b : Tally) : Tally := ⟨a.errors + b.errors, a.warnings + b.warnings⟩

end Tally

end LuaLint
