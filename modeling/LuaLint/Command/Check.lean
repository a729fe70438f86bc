import LuaLint.Command.Result
import LuaLint.Command.Setup
import LuaLint.Diagnostic.Render
import LuaLint.Text.Wrap

/-!
# Checking sources

Runs the linter on the sources that the arguments stand for and prints the diagnostics of each of
them, followed by a summary.
-/

namespace LuaLint

/-! ## Requests -/

inductive ReportForm where
  | snippets (palette : Palette)
  | brief
  /-- As JSON, on one line each. -/
  | json

/-- The diagnostics of a source as they are printed. Snippets are followed by an empty line. -/
def ReportForm.render (form : ReportForm) (source : SourceText) (ds : List Diagnostic) : Bytes :=
  if ds.isEmpty then []
  else match form with
    | .snippets palette => Diagnostic.snippets palette source ds ++ "\n"
    | .brief => ds.flatMap (Diagnostic.brief source)
    | .json => ds.flatMap fun d => (d.json source).render ++ [10]

structure CheckRequest where
  form : ReportForm
  summarized : Bool
  /-- Whether a report on the checks is wanted. -/
  timed : Bool
  /-- The patterns of files that are not to be checked. -/
  excludes : List Bytes
  args : List Bytes

/-! ## Sources -/

structure SourceReport where
  source : SourceText
  diagnostics : List Diagnostic
  /-- Whether the source follows the syntax. -/
  parsed : Bool

/-- The diagnostics about a source. A syntax error is the only one of its source. -/
def Linter.report (l : Linter) (source : SourceText) : SourceReport :=
  match l.run source.text with
  | .ok ds => ⟨source, ds, true⟩
  | .error e => ⟨source, [e.diagnostic], false⟩

/-- The sources at some paths. The standard input can be read once only. -/
def Surroundings.sources (s : Surroundings) :
    List Bytes → Except (Bytes × ReadError) (List SourceText)
  | [] => .ok []
  | path :: rest =>
    if path == FileTree.standardInput then
      (Surroundings.sources { s with input := [] } rest).map (⟨path, s.input⟩ :: ·)
    else match s.files.read path with
      | .error e => .error (path, e)
      | .ok text => (s.sources rest).map (⟨path, text⟩ :: ·)

/-! ## Summaries -/

/-- The numbers of diagnostics. -/
structure Summary where
  /-- The errors and warnings, syntax errors apart. -/
  tally : Tally
  /-- The number of sources with a syntax error. -/
  parseErrors : Nat
  deriving DecidableEq, Repr

namespace Summary

def of (reports : List SourceReport) : Summary :=
  let parsed := reports.filter SourceReport.parsed
  ⟨.of (parsed.flatMap SourceReport.diagnostics), reports.length - parsed.length⟩

def text (s : Summary) : Bytes :=
  "Results:\n" ++ Bytes.ofNat s.tally.errors ++ " errors\n" ++
    Bytes.ofNat s.tally.warnings ++ " warnings\n" ++
    Bytes.ofNat s.parseErrors ++ " parse errors\n"

/-- The exit status that a summary calls for. -/
def code (s : Summary) : Nat :=
  if s.tally.errors > 0 || s.parseErrors > 0 then faultsFound else 0

end Summary

/-! ## Running -/

/-- The report on the checks that ran. Directives are not a check that runs by itself, and without a
source that follows the syntax no check runs. -/
def TimingReport.of (reports : List SourceReport) : TimingReport :=
  let ran := if reports.any SourceReport.parsed then Lint.all.filter (· != .directives) else []
  ⟨reports.length, Bytes.sort (ran.map Lint.name)⟩

namespace CheckRequest

def output (r : CheckRequest) (reports : List SourceReport) : Bytes :=
  (reports.flatMap fun report => r.form.render report.source report.diagnostics) ++
    if r.summarized then (Summary.of reports).text else []

def run (r : CheckRequest) (s : Surroundings) (l : Linter) : CommandResult :=
  match s.files.expand r.excludes r.args with
  | .error e => .failed badInvocation e.text
  | .ok paths =>
    match s.sources paths with
    | .error (path, e) => .failed badInvocation (path ++ ": " ++ e.message path)
    | .ok sources =>
      let reports := sources.map l.report
      ⟨(Summary.of reports).code, r.output reports, [],
        if r.timed then some (.of reports) else none, []⟩

end CheckRequest

/-! ## The list of checks -/

def textWidth : Nat := 72

def indentedText (s : Bytes) : Bytes := (s.wrap textWidth).indent 4

/-- The list of all checks with their severities and what they look for. -/
def Lint.catalogue : Bytes :=
  Lint.all.flatMap fun l =>
    l.name ++ " (" ++ l.defaultSeverity.label ++ ")\n" ++ indentedText l.doc ++ "\n\n"

end LuaLint
