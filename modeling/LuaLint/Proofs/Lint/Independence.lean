import LuaLint.Proofs.Library.Decoded
import LuaLint.Proofs.Lint.Outcome

/-!
# Independence of the checks

The severity of one check does not matter to the diagnostics of the others. It does not matter to
its own diagnostics either where a directive asks for a warning or an error: those are reported even
if the check is configured to `allow`, and then nothing else of that check is.

Main statements: `Linter.Agree.filter_others`, `Linter.run_of_one_severity`.
-/

namespace LuaLint

open Lint RuleStep

variable {c : Config} {library : Library} {d : Diagnostic} {x : Lint × Finding}
  {p : Diagnostic → Bool}

namespace Linter

variable {l l' : Linter} {A : Lint} {source : Bytes} {chunk : Chunk}

/-! ## Linters that agree -/

/-- The linters differ at most in the severity of the check `A`. -/
structure Agree (A : Lint) (l l' : Linter) : Prop where
  severity : ∀ lint, lint ≠ A → l.settings.severity lint = l'.settings.severity lint
  options : l.settings.options = l'.settings.options
  library : l.library = l'.library
  chosenStd : l.chosenStd = l'.chosenStd

theorem ofConfig_eq_ok (h : ofConfig c library = .ok l) :
    l.settings.severity = c.severityOf ∧ c.lintOptions = .ok l.settings.options ∧
      l.library = library ∧ l.chosenStd = c.chosenStd := by
  unfold ofConfig Config.settings at h
  split at h
  · cases hoptions : c.lintOptions with
    | error problems =>
      rw [hoptions] at h
      cases h
    | ok o =>
      rw [hoptions] at h
      cases h
      exact ⟨rfl, rfl, rfl, rfl⟩
  · cases h

theorem agree_of_config {lints : NameMap Bytes} (hl : ofConfig c library = .ok l)
    (hl' : ofConfig { c with lints } library = .ok l')
    (hlints : ∀ lint : Lint, lint ≠ A → lints.get? lint.name = c.lints.get? lint.name) :
    Agree A l l' := by
  obtain ⟨hseverity, hoptions, hlibrary, hstd⟩ := ofConfig_eq_ok hl
  obtain ⟨hseverity', hoptions', hlibrary', hstd'⟩ := ofConfig_eq_ok hl'
  refine ⟨fun lint hlint => ?_, ?_, hlibrary.trans hlibrary'.symm, hstd.trans hstd'.symm⟩
  · rw [hseverity, hseverity']
    simp only [Config.severityOf, hlints lint hlint]
  · -- The options are read from another part of the configuration.
    have hsame : c.lintOptions = .ok l'.settings.options := hoptions'
    exact Except.ok.inj (hoptions.symm.trans hsame)

/-! ## The other checks -/

theorem Agree.findings_eq (h : Agree A l l') (source : Bytes) (chunk : Chunk) :
    findings l.settings.options (l.input source chunk) =
      findings l'.settings.options (l'.input source chunk) := by
  unfold input
  rw [h.options, h.library, h.chosenStd]

theorem Agree.shown?_eq (h : Agree A l l') (hd : d.code ≠ A.name) : l.shown? d = l'.shown? d := by
  have hfinal : l.finalSeverity d = l'.finalSeverity d := by
    unfold finalSeverity
    split
    · rename_i hcode
      have hne : directives ≠ A := by
        rintro rfl
        exact hd (beq_iff_eq.mp hcode)
      rw [h.severity _ hne]
    · rfl
  unfold shown?
  rw [hfinal]

theorem Agree.outcome?_eq (h : Agree A l l') (hx : x.1 ≠ A) :
    l.outcome? chunk x = l'.outcome? chunk x := by
  have hstamp : l.stamp x = l'.stamp x := by
    unfold stamp
    rw [h.severity x.1 hx]
  unfold outcome?
  rw [hstamp]
  apply Option.bind_congr
  intro d hd
  apply h.shown?_eq
  -- A directive does not change the code of a finding.
  have hcode : d.code = x.1.name := by
    rcases Rule.judge_eq_some hd with ⟨-, rfl⟩ | ⟨r, -, -, rfl⟩
    · rfl
    · rfl
  rw [hcode]
  exact fun hname => hx (name_inj.mp hname)

theorem filter_outcome?_eq_none (hp : ∀ d, d.code = x.1.name → d.toFinding = x.2 → p d = false) :
    (l.outcome? chunk x).filter p = none := by
  rw [Option.filter_eq_none_iff]
  intro d hd
  obtain ⟨hfinding, hcode, -⟩ := outcome?_eq_some hd
  simp [hp d hcode hfinding]

theorem filter_shown?_eq_none (hp : ∀ d', d'.code = d.code → p d' = false) :
    (l.shown? d).filter p = none := by
  rw [Option.filter_eq_none_iff]
  intro d' hd'
  simp [hp d' (shown?_eq_some hd').2.1]

/-- The diagnostics of the other checks agree. -/
theorem Agree.filter_others (h : Agree A l l') (source : Bytes) (chunk : Chunk) :
    (l.check source chunk).filter (fun d => d.code != A.name) =
      (l'.check source chunk).filter fun d => d.code != A.name := by
  apply filter_check_congr (h.findings_eq source chunk)
  · intro x
    by_cases hx : x.1 = A
    · subst hx
      rw [filter_outcome?_eq_none (by simp_all), filter_outcome?_eq_none (by simp_all)]
    · rw [h.outcome?_eq hx]
  · intro d hd
    by_cases hA : d.code = A.name
    · rw [filter_shown?_eq_none (by simp_all), filter_shown?_eq_none (by simp_all)]
    · rw [h.shown?_eq hA]

/-! ## What directives ask for -/

/-- Whether a diagnostic is one of the check `A` for which a rule asks for a warning or an error. -/
def raised (governing : Bytes → Int → Option Rule) (A : Lint) (d : Diagnostic) : Bool :=
  d.code == A.name && (governing d.code d.primary.start).any Rule.raises

/-- The severity of a check does not matter to the diagnostics that directives ask for. -/
theorem Agree.filter_raised (h : Agree A l l') (hA : A ≠ .directives) (source : Bytes)
    (chunk : Chunk) :
    (l.check source chunk).filter (raised (found (chunk.inForce names)) A) =
      (l'.check source chunk).filter (raised (found (chunk.inForce names)) A) := by
  have hcode : A.name ≠ Rule.code := fun hcode => hA (name_inj.mp hcode)
  apply filter_check_congr (h.findings_eq source chunk)
  · rintro ⟨lint, f⟩
    by_cases hlint : lint = A
    · subst hlint
      cases hrule : found (chunk.inForce names) lint.name f.primary.start with
      | none =>
        -- Nothing is asked for here.
        have hnot : ∀ d : Diagnostic, d.code = lint.name → d.toFinding = f →
            raised (found (chunk.inForce names)) lint d = false := by
          rintro d hd rfl
          simp [raised, hd, hrule]
        rw [filter_outcome?_eq_none hnot, filter_outcome?_eq_none hnot]
      | some r =>
        -- The rule decides about the severity, and it is not changed any more.
        have houtcome : ∀ {k : Linter}, k.outcome? chunk (lint, f) =
            if r.severity == .allow then none else some ⟨f, lint.name, r.severity⟩ := by
          intro k
          rw [outcome?, hrule, Rule.judge]
          split
          · rfl
          · rename_i hallow
            have hallow : r.severity ≠ .allow := by simpa using hallow
            have hfinal : k.finalSeverity ⟨f, lint.name, r.severity⟩ =
                ⟨f, lint.name, r.severity⟩ := by
              simp [finalSeverity, hcode]
            simp [shown?, stamp, hfinal, Option.guard, hallow]
        rw [houtcome, houtcome]
    · rw [h.outcome?_eq hlint]
  · intro d hd
    have hne : d.code ≠ A.name := hd ▸ hcode.symm
    rw [h.shown?_eq hne]

/-- A check that is configured to `allow` reports nothing but what directives ask for. -/
theorem raised_of_mem_check
    (hrules : Nestable ((chunk.inForce names).filter acts))
    (hA : A ≠ .directives) (hallow : l.settings.severity A = .allow)
    (hd : d ∈ l.check source chunk) (hcode : d.code = A.name) :
    raised (found (chunk.inForce names)) A d := by
  have hne : A.name ≠ Rule.code := fun h => hA (name_inj.mp h)
  rcases mem_check.mp hd with ⟨⟨lint, f⟩, -, hd⟩ | ⟨d₀, hd₀, hd⟩
  · obtain ⟨hfinding, hname, -⟩ := outcome?_eq_some hd
    obtain rfl : lint = A := name_inj.mp (hname.symm.trans hcode)
    obtain ⟨judged, hjudged, hshown⟩ := Option.bind_eq_some_iff.mp hd
    have hsame := (shown?_eq_some hshown).2.2
    rcases Rule.judge_eq_some hjudged with ⟨-, rfl⟩ | ⟨r, hr, hraise, rfl⟩
    · -- Without a rule the severity would still be `allow`.
      have hd : d = l.stamp (lint, f) := hsame.2 hne
      exact absurd (hd ▸ hallow) hsame.1
    · have hgoverns := governs_found hrules lint.name f.primary.start
      rw [hr] at hgoverns
      have hraises := Chunk.raises_of_mem_inForce hgoverns.mem hraise
      subst hfinding
      simp [raised, hcode, hr, hraises]
  · -- What is reported about directives has their code.
    have hreport := Chunk.code_of_mem_reports d₀ hd₀
    rw [(shown?_eq_some hd).2.1, hreport] at hcode
    exact absurd hcode.symm hne

/-! ## Configurations -/

/-- Two configurations without problems that differ in the severity of one check. Either the source
has a syntax error, or the diagnostics of all other checks are the same; those of the check itself
that a directive asks for are the same too, and they are all that is left of it if it is configured
to `allow`. No diagnostic has the severity `allow`, and they are in order. -/
theorem run_of_one_severity {c : Config} {lints : NameMap Bytes} {library : Library}
    (hl : ofConfig c library = .ok l) (hl' : ofConfig { c with lints } library = .ok l')
    (hlints : ∀ lint : Lint, lint ≠ A → lints.get? lint.name = c.lints.get? lint.name)
    (source : Bytes) :
    (∃ e, l.run source = .error e ∧ l'.run source = .error e) ∨
      ∃ chunk ds ds', Parser.parse source = .ok chunk ∧ l.run source = .ok ds ∧
        l'.run source = .ok ds' ∧
        ds.filter (fun d => d.code != A.name) = ds'.filter (fun d => d.code != A.name) ∧
        (∃ governing : Bytes → Int → Option Rule,
          (∀ code off rule,
            Governs (chunk.inForce Lint.names) code off rule ↔ rule = governing code off) ∧
          (A ≠ .directives →
            ds.filter (raised governing A) = ds'.filter (raised governing A) ∧
            (c.severityOf A = .allow →
              ds.filter (fun d => d.code == A.name) = ds'.filter (raised governing A)))) ∧
        ∀ out ∈ [ds, ds'], (∀ d ∈ out, d.severity ≠ .allow) ∧ out.Pairwise Diagnostic.Precedes := by
  have hagree := agree_of_config hl hl' hlints
  cases hparse : Parser.parse source with
  | error e => exact .inl ⟨e, by rw [run, hparse]; rfl, by rw [run, hparse]; rfl⟩
  | ok chunk =>
    right
    have hrules := (Parser.nested_of_parse hparse).nestable Lint.names
    have hraised := fun hA => hagree.filter_raised hA source chunk
    refine ⟨chunk, l.check source chunk, l'.check source chunk, rfl, by rw [run, hparse]; rfl,
      by rw [run, hparse]; rfl, hagree.filter_others source chunk,
      ⟨RuleStep.found (chunk.inForce Lint.names), fun code off rule => ⟨fun h => ?_, ?_⟩,
        fun hA => ⟨hraised hA, fun hallow => ?_⟩⟩, ?_⟩
    · exact h.unique (RuleStep.governs_found hrules code off)
    · rintro rfl
      exact RuleStep.governs_found hrules code off
    · rw [← hraised hA]
      -- With `allow`, what is left of the check has been asked for.
      apply List.filter_congr
      intro d hd
      have hallow : l.settings.severity A = .allow := by rwa [(ofConfig_eq_ok hl).1]
      by_cases hcode : d.code = A.name
      · rw [raised_of_mem_check hrules hA hallow hd hcode]
        simpa using hcode
      · simp [raised, hcode]
    · intro out hout
      rw [List.mem_pair] at hout
      rcases hout with rfl | rfl
      · exact ⟨fun d hd => severity_ne_allow hd, sorted_check l source chunk⟩
      · exact ⟨fun d hd => severity_ne_allow hd, sorted_check l' source chunk⟩

def onlyUnused (word : Bytes) : Config := { Config.empty with lints := [(Lint.unused.name, word)] }

/-- Two unused variables and an undefined one; a directive asks for a warning about the second
unused variable. -/
def askingSource : Bytes := "local a = x\n-- selene: warn(unused_variable)\nlocal b = 1\n"

theorem run_of_one_severity_unused :
    ∃ l l' chunk ds ds', ofConfig (onlyUnused "allow") Library.empty = .ok l ∧
      ofConfig (onlyUnused "deny") Library.empty = .ok l' ∧
      Parser.parse askingSource = .ok chunk ∧
      (findings l.settings.options (l.input askingSource chunk)).map
          (fun x => (x.1, x.2.primary.start)) = [(.undefined, 10), (.unused, 6), (.unused, 51)] ∧
      (chunk.inForce Lint.names).map (fun r => (r.severity, r.range)) = [(.warning, ⟨45, 56⟩)] ∧
      l.run askingSource = .ok ds ∧ l'.run askingSource = .ok ds' ∧
      ds.filter (fun d => d.code != Lint.unused.name) =
        ds'.filter (fun d => d.code != Lint.unused.name) ∧
      ∃ governing : Bytes → Int → Option Rule,
        (∀ code off rule,
          Governs (chunk.inForce Lint.names) code off rule ↔ rule = governing code off) ∧
        ds.filter (fun d => d.code == Lint.unused.name) =
          ds'.filter (raised governing .unused) := by
  have hinput : ∃ l ∈ (ofConfig (onlyUnused "allow") Library.empty).toOption,
      ∃ chunk ∈ (Parser.parse askingSource).toOption,
        (findings l.settings.options (l.input askingSource chunk)).map
            (fun x => (x.1, x.2.primary.start)) = [(.undefined, 10), (.unused, 6), (.unused, 51)] ∧
        (chunk.inForce Lint.names).map (fun r => (r.severity, r.range)) =
          [(.warning, ⟨45, 56⟩)] := by
    decide +kernel
  have hdeny : ∃ l' ∈ (ofConfig (onlyUnused "deny") Library.empty).toOption,
      l'.chosenStd = none := by
    decide +kernel
  obtain ⟨l, hl, chunk, hparse, hfound, hrules⟩ := hinput
  obtain ⟨l', hl', -⟩ := hdeny
  have hl := toOption_eq_some_iff.mp hl
  have hl' := toOption_eq_some_iff.mp hl'
  have hparse := toOption_eq_some_iff.mp hparse
  have hlints : ∀ lint : Lint, lint ≠ .unused →
      (onlyUnused "deny").lints.get? lint.name = (onlyUnused "allow").lints.get? lint.name := by
    intro lint hlint
    simp [onlyUnused, Lint.name_inj, hlint.symm]
  rcases run_of_one_severity hl hl' hlints askingSource with ⟨e, he, -⟩ |
    ⟨chunk', ds, ds', hparse', hds, hds', hothers, ⟨governing, hgoverning, hraised⟩, -⟩
  · rw [run, hparse] at he
    cases he
  · cases hparse'.symm.trans hparse
    exact ⟨l, l', chunk, ds, ds', hl, hl', hparse, hfound, hrules, hds, hds', hothers, governing,
      hgoverning, (hraised (by decide)).2 rfl⟩

end Linter

end LuaLint
