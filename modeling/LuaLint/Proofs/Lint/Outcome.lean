import Mathlib.Data.List.Basic
import LuaLint.Linter
import LuaLint.Proofs.Diagnostic.Order
import LuaLint.Proofs.Directive.Semantics

/-!
# The outcome of findings

The checks find the same things whatever their severities are. A finding gets the severity of its
check, a directive may change it, and the finding is reported unless it is `allow` in the end. All
this is done for one finding at a time, so that the diagnostics about a source are the outcomes of
the findings, in order.

Main statements: `Linter.check_eq`, `Linter.filter_check_congr`.
-/

namespace LuaLint

open List Diagnostic

variable {d d' : Diagnostic} {r : Rule}

/-! ## Names of checks -/

namespace Lint

theorem ofName?_name (lint : Lint) : ofName? lint.name = some lint := by
  cases lint <;> rfl

theorem name_inj {lint lint' : Lint} : lint.name = lint'.name ↔ lint = lint' := by
  refine ⟨fun h => ?_, congrArg name⟩
  have hfound := ofName?_name lint
  rw [h, ofName?_name] at hfound
  exact (Option.some.inj hfound).symm

end Lint

/-! ## Rules -/

namespace Rule

def raises (r : Rule) : Bool := r.severity == .warning || r.severity == .error

theorem judge_eq_some {rule : Option Rule} (h : judge rule d = some d') : rule = none ∧ d' = d ∨
      ∃ r, rule = some r ∧ r.severity ≠ .allow ∧ d' = { d with severity := r.severity } := by
  cases rule with
  | none => exact .inl ⟨rfl, (Option.some.inj h).symm⟩
  | some r =>
    rw [judge] at h
    split at h
    · cases h
    · rename_i hallow
      exact .inr ⟨r, rfl, by simpa using hallow, (Option.some.inj h).symm⟩

end Rule

theorem Directive.severity_of_ofLine? {line : Bytes} {d : Directive} (h : ofLine? line = some d) :
    d.severity = .allow ∨ d.severity = .warning ∨ d.severity = .error := by
  simp only [ofLine?, Option.bind_eq_bind, Option.bind_eq_some_iff] at h
  obtain ⟨request, -, ⟨verb, rest⟩, -, ⟨lints, _⟩, -, severity, hseverity, h⟩ := h
  split at h
  · cases h
  · cases h
    unfold severityOf? at hseverity
    split at hseverity
    · exact .inl (Option.some.inj hseverity).symm
    · split at hseverity
      · exact .inr (.inl (Option.some.inj hseverity).symm)
      · split at hseverity
        · exact .inr (.inr (Option.some.inj hseverity).symm)
        · cases hseverity

theorem Chunk.raises_of_mem_inForce {c : Chunk} {known : List Bytes} (h : r ∈ c.inForce known)
    (hr : r.severity ≠ .allow) : r.raises := by
  obtain ⟨x, hx, hleft⟩ := mem_filterMap.mp (mem_filter.mp h).1
  cases x with
  | inr d => cases hleft
  | inl q =>
    cases hleft
    simp only [rules, mem_flatMap, rulesOf, mem_map, mem_filterMap] at hx
    obtain ⟨comment, -, d, ⟨line, -, hline⟩, lint, -, hx⟩ := hx
    split at hx
    · cases hx
      rcases Directive.severity_of_ofLine? hline with hallow | hraise
      · exact absurd hallow hr
      · simpa [Rule.raises] using hraise
    · cases hx

theorem Governs.mem {rules : List Rule} {code : Bytes} {off : Int}
    (h : Governs rules code off (some r)) : r ∈ rules := by
  cases h with
  | innermost hsplit _ _ _ => simp [hsplit]
  | general _ hsplit _ _ => simp [hsplit]

/-! ## Outcomes -/

namespace Linter

variable {l l' : Linter} {source : Bytes} {chunk : Chunk}

/-- What the checks find, each finding with the check that has made it. -/
def findings (o : LintOptions) (input : LintInput) : List (Lint × Finding) :=
  Lint.all.flatMap fun lint => (lint.findings o input).map fun f => (lint, f)

/-- A finding with the name of its check and the severity that the check is configured with. -/
def stamp (l : Linter) (x : Lint × Finding) : Diagnostic := ⟨x.2, x.1.name, l.settings.severity x.1⟩

theorem reported_eq (l : Linter) (input : LintInput) :
    l.reported input = (findings l.settings.options input).map l.stamp := by
  simp only [reported, findings, map_flatMap, map_map]
  rfl

/-- A diagnostic with its severity in the end, unless that is `allow`. -/
def shown? (l : Linter) (d : Diagnostic) : Option Diagnostic :=
  Option.guard (fun d => d.severity != .allow) (l.finalSeverity d)

def outcome? (l : Linter) (chunk : Chunk) (x : Lint × Finding) : Option Diagnostic :=
  (Rule.judge (RuleStep.found (chunk.inForce Lint.names) x.1.name x.2.primary.start)
    (l.stamp x)).bind l.shown?

/-- The diagnostics about a parsed source are the outcomes of the findings and what is reported
about directives. -/
theorem check_eq (l : Linter) (source : Bytes) (chunk : Chunk) :
    l.check source chunk = sort
      ((chunk.inSweepOrder Lint.names (fun x => x.2.primary.start)
          (findings l.settings.options (l.input source chunk))).filterMap (l.outcome? chunk) ++
        (chunk.reports Lint.names).filterMap l.shown?) := by
  have hshown : ∀ ds : List Diagnostic,
      (ds.map l.finalSeverity).filter (fun d => d.severity != .allow) = ds.filterMap l.shown? := by
    intro ds
    rw [← filterMap_eq_filter, filterMap_map]
    rfl
  simp only [check, reported_eq, Chunk.applyDirectives_inSweepOrder, Chunk.inSweepOrder_map, hshown,
    filterMap_append, filterMap_map, filterMap_filterMap]
  rfl

theorem mem_check : d ∈ l.check source chunk ↔
      (∃ x ∈ findings l.settings.options (l.input source chunk), l.outcome? chunk x = some d) ∨
        ∃ d₀ ∈ chunk.reports Lint.names, l.shown? d₀ = some d := by
  rw [check_eq, mem_sort, mem_append, mem_filterMap, mem_filterMap]
  simp only [(Chunk.inSweepOrder_perm _ _ _ _).mem_iff]

/-- Selections from the diagnostics of two linters that find the same agree if they agree on the
outcome of each finding and on each report about directives. -/
theorem filter_check_congr {p q : Diagnostic → Bool}
    (hfindings : findings l.settings.options (l.input source chunk) =
      findings l'.settings.options (l'.input source chunk))
    (houtcome : ∀ x, (l.outcome? chunk x).filter p = (l'.outcome? chunk x).filter q)
    (hshown : ∀ d, d.code = Rule.code → (l.shown? d).filter p = (l'.shown? d).filter q) :
    (l.check source chunk).filter p = (l'.check source chunk).filter q := by
  rw [check_eq, check_eq, filter_sort, filter_sort, hfindings]
  simp only [filter_append, filter_filterMap, houtcome]
  congr 2
  apply filterMap_congr
  intro d hd
  exact hshown d (Chunk.code_of_mem_reports d hd)

/-! ## What an outcome keeps -/

/-- The finding and its code are shown as they are, and only what is about directives gets another
severity. -/
theorem shown?_eq_some (h : l.shown? d = some d') :
    d'.toFinding = d.toFinding ∧ d'.code = d.code ∧ d'.severity ≠ .allow ∧
      (d.code ≠ Rule.code → d' = d) := by
  obtain ⟨rfl, hallow⟩ := Option.guard_eq_some_iff.mp h
  have hallow : (l.finalSeverity d).severity ≠ .allow := by simpa using hallow
  by_cases hcode : d.code = Rule.code
  · have hfinal : l.finalSeverity d = { d with severity := l.settings.severity .directives } := by
      simp [finalSeverity, hcode]
    rw [hfinal] at hallow ⊢
    exact ⟨rfl, rfl, hallow, fun h => absurd hcode h⟩
  · have hfinal : l.finalSeverity d = d := by simp [finalSeverity, hcode]
    rw [hfinal] at hallow ⊢
    exact ⟨rfl, rfl, hallow, fun _ => rfl⟩

theorem outcome?_eq_some {x : Lint × Finding} (h : l.outcome? chunk x = some d) :
    d.toFinding = x.2 ∧ d.code = x.1.name ∧ d.severity ≠ .allow := by
  obtain ⟨judged, hjudged, hshown⟩ := Option.bind_eq_some_iff.mp h
  obtain ⟨hfinding, hcode, hallow, -⟩ := shown?_eq_some hshown
  rw [hfinding, hcode]
  rcases Rule.judge_eq_some hjudged with ⟨-, rfl⟩ | ⟨r, -, -, rfl⟩
  · exact ⟨rfl, rfl, hallow⟩
  · exact ⟨rfl, rfl, hallow⟩

theorem severity_ne_allow (h : d ∈ l.check source chunk) : d.severity ≠ .allow := by
  rcases mem_check.mp h with ⟨x, -, hd⟩ | ⟨d₀, -, hd⟩
  · exact (outcome?_eq_some hd).2.2
  · exact (shown?_eq_some hd).2.2.1

theorem sorted_check (l : Linter) (source : Bytes) (chunk : Chunk) :
    (l.check source chunk).Pairwise Precedes :=
  sorted_sort _

end Linter

end LuaLint
