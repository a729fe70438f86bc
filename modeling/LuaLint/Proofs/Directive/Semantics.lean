import LuaLint.Proofs.Directive.Governing

/-!
# What directives do to findings

The directives of a parsed chunk hold for nodes of its tree or for tokens, so that their ranges are
nested. The sweep therefore never ends a range where none is in force, and what becomes of a finding
depends on its code and its place alone.

Main statements: `Chunk.applyDirectives_eq`.
-/

namespace LuaLint

open List RuleStep Rule

variable {c : Chunk} {known : List Bytes}

/-! ## Rules that take effect -/

namespace Rule

theorem accept_fst (first : Option Span) (accepted rules : List Rule) :
    (accept first accepted rules).1 = rules.filter fun r => !r.isLate first := by
  induction rules generalizing accepted with
  | nil => rfl
  | cons r rules ih =>
    rw [accept, filter_cons]
    cases r.isLate first with
    | true => exact ih accepted
    | false =>
      show r :: (accept first (accepted ++ [r]) rules).1 = r :: _
      rw [ih]

theorem code_of_mem_accept {first : Option Span} {accepted rules : List Rule} :
    ∀ d ∈ (accept first accepted rules).2, d.code = code := by
  induction rules generalizing accepted with
  | nil => simp [accept]
  | cons r rules ih =>
    rw [accept]
    split
    · exact forall_mem_cons.mpr ⟨rfl, ih⟩
    · refine forall_mem_append.mpr ⟨?_, ih⟩
      intro d hd
      obtain ⟨q, -, rfl⟩ := mem_map.mp hd
      rfl

end Rule

namespace Chunk

/-- The rules of a chunk that take effect: all but those for the whole file that stand after the
beginning of the code. -/
def inForce (c : Chunk) (known : List Bytes) : List Rule :=
  ((c.rules known).filterMap Sum.getLeft?).filter fun r => !r.isLate c.firstCode?

theorem range_of_mem_rules {r : Rule} (h : .inl r ∈ c.rules known) (hr : r.wholeFile = false) :
    ∃ comment, r.range = c.rangeAfter comment := by
  simp only [rules, mem_flatMap, rulesOf, mem_map] at h
  obtain ⟨comment, -, d, -, lint, -, h⟩ := h
  split at h
  · cases h
    exact ⟨comment.span, by simpa using fun hd => by simp_all⟩
  · cases h

theorem code_of_mem_rules {d : Diagnostic} (h : .inr d ∈ c.rules known) : d.code = code := by
  simp only [rules, mem_flatMap, rulesOf, mem_map] at h
  obtain ⟨comment, -, request, -, lint, -, h⟩ := h
  split at h
  · cases h
  · cases h
    rfl

theorem rangeAfter_cases (c : Chunk) (comment : Span) : (c.rangeAfter comment).length = 0 ∨
      (∃ n ∈ c.nodes, n.isBlock = false ∧ c.rangeAfter comment = n.span) ∨
      c.rangeAfter comment ∈ c.tokens := by
  unfold rangeAfter
  split
  · left
    simp [Span.length]
  · rename_i token htoken
    right
    split
    · rename_i n hn
      left
      have hblock := find?_some hn
      simp only [Bool.and_eq_true, Bool.not_eq_true'] at hblock
      exact ⟨n, mem_of_find?_eq_some hn, hblock.1, rfl⟩
    · exact .inr (mem_of_find?_eq_some htoken)

end Chunk

/-! ## Nested ranges -/

namespace Parser

variable {chunk : Chunk} {ts : List Token} {s s' : Span}

/-- A range that is that of a node or of a token. -/
def Anchored (chunk : Chunk) (s : Span) : Prop :=
  (∃ n ∈ chunk.nodes, n.isBlock = false ∧ s = n.span) ∨ s ∈ chunk.tokens

theorem Nested.runs_of_anchored (h : Nested chunk ts) (hs : Anchored chunk s) : Runs ts s := by
  rcases hs with ⟨n, hn, hblock, rfl⟩ | hs
  · exact (h.runs n hn).resolve_left (Node.not_isEmptyBlock hblock)
  · rw [h.tokens] at hs
    obtain ⟨t, ht, rfl⟩ := mem_map.mp hs
    exact .of_mem ht

theorem Nested.laminar_of_anchored (h : Nested chunk ts) (hs : Anchored chunk s)
    (hs' : Anchored chunk s') : s.Laminar s' := by
  have htoken : ∀ {s s'}, Anchored chunk s → s' ∈ chunk.tokens → s.Laminar s' := by
    intro s s' hs hs'
    rw [h.tokens] at hs'
    obtain ⟨t, ht, rfl⟩ := mem_map.mp hs'
    exact (h.runs_of_anchored hs).laminar_token h.ordered ht
  rcases hs with ⟨n, hn, hblock, rfl⟩ | hs
  · rcases hs' with ⟨m, hm, hblock', rfl⟩ | hs'
    · exact h.laminar n hn m hm (Node.not_isEmptyBlock hblock) (Node.not_isEmptyBlock hblock')
    · exact htoken (.inl ⟨n, hn, hblock, rfl⟩) hs'
  · exact (htoken hs' hs).symm

theorem Nested.nestable (h : Nested chunk ts) (known : List Bytes) :
    Nestable ((chunk.inForce known).filter acts) := by
  have hanchored : ∀ r ∈ (chunk.inForce known).filter acts, Anchored chunk r.range := by
    intro r hr
    obtain ⟨hr, hacts⟩ := mem_filter.mp hr
    simp only [acts, Bool.and_eq_true, Bool.not_eq_true', bne_iff_ne] at hacts
    have hlaid : .inl r ∈ chunk.rules known := by
      obtain ⟨x, hx, hleft⟩ := mem_filterMap.mp (mem_filter.mp hr).1
      cases x with
      | inl q =>
        cases hleft
        exact hx
      | inr d => cases hleft
    obtain ⟨comment, hrange⟩ := Chunk.range_of_mem_rules hlaid hacts.1
    rcases chunk.rangeAfter_cases comment with hempty | hnode | htoken
    · exact absurd (hrange ▸ hempty) hacts.2
    · exact .inl (hrange ▸ hnode)
    · exact .inr (hrange ▸ htoken)
  exact ⟨fun r hr => (h.runs_of_anchored (hanchored r hr)).lt h.ordered,
    fun r hr q hq => h.laminar_of_anchored (hanchored r hr) (hanchored q hq)⟩

end Parser

/-! ## The findings about a chunk -/

/-- What becomes of a finding under the rule that governs it. -/
inductive Verdict (d : Diagnostic) : Option Rule → Option Diagnostic → Prop where
  | kept : Verdict d none (some d)
  | dropped {r : Rule} : r.severity = .allow → Verdict d (some r) none
  | changed {r : Rule} :
      r.severity ≠ .allow → Verdict d (some r) (some { d with severity := r.severity })

theorem verdict_judge (rule : Option Rule) (d : Diagnostic) :
    Verdict d rule (judge rule d) := by
  cases rule with
  | none => exact .kept
  | some r =>
    rw [judge]
    split
    · exact .dropped (by simp_all)
    · exact .changed (by simp_all)

theorem Diagnostic.sorted_mergeSort (ds : List Diagnostic) :
    (ds.mergeSort fun a b => a.primary.start ≤ b.primary.start).Pairwise
      fun a b => a.primary.start ≤ b.primary.start := by
  have hsorted := pairwise_mergeSort
    (fun (a b c : Diagnostic) (hab : decide (a.primary.start ≤ b.primary.start))
      (hbc : decide (b.primary.start ≤ c.primary.start)) =>
        decide_eq_true (Int.le_trans (of_decide_eq_true hab) (of_decide_eq_true hbc)))
    (fun a b => by simpa using Int.le_total a.primary.start b.primary.start) ds
  exact hsorted.imp of_decide_eq_true

namespace Chunk

def reports (c : Chunk) (known : List Bytes) : List Diagnostic :=
  (c.rules known).filterMap Sum.getRight? ++
    (Rule.accept c.firstCode? [] ((c.rules known).filterMap Sum.getLeft?)).2

theorem code_of_mem_reports : ∀ d ∈ c.reports known, d.code = code := by
  rw [reports, forall_mem_append]
  refine ⟨fun d hd => ?_, code_of_mem_accept⟩
  obtain ⟨x, hx, hright⟩ := mem_filterMap.mp hd
  cases x with
  | inl r => cases hright
  | inr d' =>
    cases hright
    exact code_of_mem_rules hx

/-- Findings, or things from which they are made, in the order in which directives act on them: by
where they start, or as they are when no rule has been laid down. -/
def inSweepOrder {α : Type} (c : Chunk) (known : List Bytes) (start : α → Int)
    (xs : List α) : List α :=
  if ((c.rules known).filterMap Sum.getLeft?).isEmpty then xs
  else xs.mergeSort fun a b => start a ≤ start b

theorem inSweepOrder_perm {α : Type} (c : Chunk) (known : List Bytes) (start : α → Int)
    (xs : List α) :
    (c.inSweepOrder known start xs).Perm xs := by
  unfold inSweepOrder
  split
  · exact .refl _
  · exact mergeSort_perm xs _

theorem inSweepOrder_map {α β : Type} (c : Chunk) (known : List Bytes) (f : α → β) (start : β → Int)
    (xs : List α) : c.inSweepOrder known start (xs.map f) =
      (c.inSweepOrder known (fun a => start (f a)) xs).map f := by
  unfold inSweepOrder
  split
  · rfl
  · symm
    apply map_mergeSort
    intro a _ b _
    rfl

theorem applyDirectives_inSweepOrder (c : Chunk) (known : List Bytes) (ds : List Diagnostic) :
    c.applyDirectives known ds =
      (c.inSweepOrder known (·.primary.start) ds).filterMap (fun d => judge
        (found (c.inForce known) d.code d.primary.start) d) ++ c.reports known := by
  have haccept := accept_fst c.firstCode? [] ((c.rules known).filterMap Sum.getLeft?)
  simp only [applyDirectives, inSweepOrder]
  split
  · rename_i hempty
    have hnil : (c.rules known).filterMap Sum.getLeft? = [] := isEmpty_iff.mp hempty
    have hnone : ∀ code off, found (c.inForce known) code off = none := by
      intro code off
      simp [inForce, hnil, found, schedule, upTo]
    simp [hnone, judge, reports, hnil, accept]
  · have hsweep := sweep_eq (c.inForce known) (nil_append _).symm (by simp)
      (Diagnostic.sorted_mergeSort ds)
    rw [haccept, ← inForce, reports, ← append_assoc, ← hsweep]
    rfl

theorem applyDirectives_judge (c : Chunk) (known : List Bytes) (ds : List Diagnostic) :
    ∃ order : List Diagnostic, order.Perm ds ∧ c.applyDirectives known ds =
      order.filterMap (fun d => judge
        (found (c.inForce known) d.code d.primary.start) d) ++ c.reports known :=
  ⟨_, inSweepOrder_perm c known (·.primary.start) ds, applyDirectives_inSweepOrder c known ds⟩

/-- What becomes of the findings about a parsed chunk. No range is left that was not entered, one
rule at most governs a finding, and the findings that come back, but for those about the directives
themselves, are the given ones, each dropped, changed or kept as that rule says. -/
theorem applyDirectives_eq {source : Bytes} {chunk : Chunk} (h : Parser.parse source = .ok chunk)
    (known : List Bytes) :
    (∀ before off after,
      RuleStep.schedule (chunk.inForce known) = before ++ .leave off :: after →
      before.foldl RuleStep.act [] ≠ []) ∧
    ∃ governing : Bytes → Int → Option Rule,
      (∀ code off rule,
        Governs (chunk.inForce known) code off rule ↔ rule = governing code off) ∧
      ∃ outcome : Diagnostic → Option Diagnostic,
        (∀ d, Verdict d (governing d.code d.primary.start) (outcome d)) ∧
        ∃ reports : List Diagnostic, (∀ d ∈ reports, d.code = Rule.code) ∧
          ∀ ds, ∃ order : List Diagnostic, order.Perm ds ∧
            chunk.applyDirectives known ds = order.filterMap outcome ++ reports := by
  have hrules := (Parser.nested_of_parse h).nestable known
  refine ⟨fun before off after hsplit => RuleStep.stack_ne_nil hrules hsplit,
    RuleStep.found (chunk.inForce known), fun code off rule => ⟨fun hgoverns => ?_, ?_⟩,
    fun d => Rule.judge (RuleStep.found (chunk.inForce known) d.code d.primary.start) d,
    fun d => verdict_judge _ d, chunk.reports known, code_of_mem_reports,
    chunk.applyDirectives_judge known⟩
  · exact hgoverns.unique (RuleStep.governs_found hrules code off)
  · rintro rfl
    exact RuleStep.governs_found hrules code off

theorem applyDirectives_nested :
    ∃ chunk, Parser.parse ("--# selene: warn(a)\n-- selene: allow(a)\nlocal function f()\n" ++
        "  -- selene: deny(a)\n  return 1\nend\nreturn f" : Bytes) = .ok chunk ∧
      (chunk.inForce ["a"]).map Rule.range = [⟨0, 103⟩, ⟨40, 94⟩, ⟨82, 90⟩] ∧
      ∃ governing : Bytes → Int → Option Rule,
        (∀ code off rule,
          Governs (chunk.inForce ["a"]) code off rule ↔ rule = governing code off) ∧
        ∃ outcome : Diagnostic → Option Diagnostic,
          (∀ d, Verdict d (governing d.code d.primary.start) (outcome d)) ∧
          ∃ reports : List Diagnostic, (∀ d ∈ reports, d.code = Rule.code) ∧
            ∀ ds, ∃ order : List Diagnostic, order.Perm ds ∧
              chunk.applyDirectives ["a"] ds = order.filterMap outcome ++ reports := by
  exact exists_ok_and ⟨_, rfl, rfl⟩ fun _ hparse _ => (applyDirectives_eq hparse ["a"]).2

end Chunk

end LuaLint
