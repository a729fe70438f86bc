import LuaLint.Text.Bytes

/-!
# Results of commands

What running a command comes to: an exit status, what is printed and which files are written.
-/

namespace LuaLint

/-- Which checks ran, and on how many files. How long they took is for whoever runs the command to
measure. -/
structure TimingReport where
  files : Nat
  /-- The names of the checks in ascending order. -/
  lints : List Bytes
  deriving DecidableEq, Repr

def TimingReport.heading (t : TimingReport) : Bytes :=
  "Timings over " ++ Bytes.ofNat t.files ++ " files:"

structure CommandResult where
  code : Nat
  output : Bytes
  errors : Bytes
  /-- The report on the checks that ran, if one is wanted. -/
  timings : Option TimingReport
  written : List (Bytes × Bytes)
  deriving DecidableEq, Repr

namespace CommandResult

def printed (code : Nat) (output : Bytes) : CommandResult := ⟨code, output, [], none, []⟩

def failed (code : Nat) (message : Bytes) : CommandResult :=
  ⟨code, [], message ++ "\n", none, []⟩

end CommandResult

def faultsFound : Nat := 1

/-- The exit status of a command that could not do its work. -/
def badInvocation : Nat := 2

end LuaLint
