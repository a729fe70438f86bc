import LuaLint.Proofs.Directive.Sweep

/-!
# The rule that governs a finding

Which rule decides about a finding is a matter of its code and its place alone: the innermost rule
around the place that names the code, the last one of those that hold for the same range, and
without any the last rule for the whole file that names it. The sweep finds this rule.

Main statements: `Governs.unique`, `RuleStep.governs_found`, `RuleStep.sweep_eq`.
-/

namespace LuaLint

open List Rule LuaLint.Span

variable {p : Rule → Bool} {rules : List Rule} {r : Rule}

/-! ## Governing rules -/

/-- Whether a rule for a piece of syntax names a code and holds at an offset. -/
def Rule.coversAt (code : Bytes) (off : Int) (r : Rule) : Bool :=
  !r.wholeFile && r.lint == code && r.range.covers off

def Rule.isGeneral (code : Bytes) (r : Rule) : Bool := r.wholeFile && r.lint == code

/-- The rule that decides about the findings of a code at an offset: the innermost one around the
offset and the last one of those with the same range; otherwise the last one for the whole file;
otherwise none. -/
inductive Governs (rules : List Rule) (code : Bytes) (off : Int) : Option Rule → Prop where
  | innermost {before after : List Rule} {r : Rule} :
      rules = before ++ r :: after → r.coversAt code off →
      (∀ q ∈ rules, q.coversAt code off → q.range.encloses r.range) →
      (∀ q ∈ after, q.coversAt code off → q.range ≠ r.range) →
      Governs rules code off (some r)
  | general {before after : List Rule} {r : Rule} :
      (∀ q ∈ rules, q.coversAt code off = false) →
      rules = before ++ r :: after → r.isGeneral code →
      (∀ q ∈ after, q.isGeneral code = false) → Governs rules code off (some r)
  | none :
      (∀ q ∈ rules, q.coversAt code off = false) → (∀ q ∈ rules, q.isGeneral code = false) →
      Governs rules code off none

theorem getLast?_filter_split {before after : List Rule} (h : rules = before ++ r :: after)
    (hr : p r = true) (hafter : ∀ q ∈ after, p q = false) : (rules.filter p).getLast? = some r := by
  have hnil : after.filter p = [] := by
    rw [filter_eq_nil_iff]
    intro q hq
    simp [hafter q hq]
  rw [h, filter_append, filter_cons_of_pos hr, hnil, getLast?_concat]

theorem exists_split_of_getLast?_filter (h : (rules.filter p).getLast? = some r) :
    ∃ before after, rules = before ++ r :: after ∧ p r = true ∧ ∀ q ∈ after, p q = false := by
  obtain ⟨init, hinit⟩ := getLast?_eq_some_iff.mp h
  obtain ⟨front, back, rfl, -, hback⟩ := filter_eq_append_iff.mp hinit
  obtain ⟨skipped, after, rfl, -, hr, hafter⟩ := filter_eq_cons_iff.mp hback
  refine ⟨front ++ skipped, after, by simp, hr, fun q hq => ?_⟩
  simpa using filter_eq_nil_iff.mp hafter q hq

/-- At most one rule governs a place. -/
theorem Governs.unique {code : Bytes} {off : Int} {x y : Option Rule}
    (hx : Governs rules code off x) (hy : Governs rules code off y) : x = y := by
  cases hx with
  | @innermost before after r hsplit hr hinner hlast =>
    have hmem : r ∈ rules := by simp [hsplit]
    cases hy with
    | @innermost before' after' r' hsplit' hr' hinner' hlast' =>
      have hmem' : r' ∈ rules := by simp [hsplit']
      -- Each of the two ranges lies within the other.
      have hrange : r'.range = r.range := by
        have h₁ := encloses_iff.mp (hinner r' hmem' hr')
        have h₂ := encloses_iff.mp (hinner' r hmem hr)
        cases hs : r.range
        cases hs' : r'.range
        simp only [hs, hs'] at h₁ h₂
        simp only [Span.mk.injEq]
        omega
      have h₁ := getLast?_filter_split (p := fun q => q.coversAt code off && q.range == r.range)
        hsplit (by simp [hr]) (fun q hq => by
          have := hlast q hq
          cases h : q.coversAt code off <;> simp_all)
      have h₂ := getLast?_filter_split (p := fun q => q.coversAt code off && q.range == r.range)
        hsplit' (by simp [hr', hrange]) (fun q hq => by
          have := hlast' q hq
          cases h : q.coversAt code off <;> simp_all)
      exact h₁.symm.trans h₂
    | general hnone _ _ _ => simp [hnone r hmem] at hr
    | none hnone _ => simp [hnone r hmem] at hr
  | @general before after r hnone hsplit hr hlast =>
    cases hy with
    | @innermost before' after' r' hsplit' hr' _ _ =>
      simp [hnone r' (by simp [hsplit'])] at hr'
    | general _ hsplit' hr' hlast' =>
      exact (getLast?_filter_split hsplit hr hlast).symm.trans
        (getLast?_filter_split hsplit' hr' hlast')
    | none _ hnone' => simp [hnone' r (by simp [hsplit])] at hr
  | none hnone hnone' =>
    cases hy with
    | @innermost before' after' r' hsplit' hr' _ _ =>
      simp [hnone r' (by simp [hsplit'])] at hr'
    | @general before' after' r' _ hsplit' hr' _ =>
      simp [hnone' r' (by simp [hsplit'])] at hr'
    | none => rfl

/-! ## The rule that the sweep finds -/

namespace RuleStep

variable {rules : List Rule} {code : Bytes} {off : Int}

theorem map_enter_sublist (p : Rule → Bool) (rules : List Rule) :
    ((rules.filter p).map .enter).Sublist (rules.flatMap changes) := by
  induction rules with
  | nil => exact .slnil
  | cons r rules ih =>
    rw [flatMap_cons, filter_cons, changes, cons_append, cons_append, nil_append]
    split
    · exact (ih.cons _).cons_cons _
    · exact (ih.cons _).cons _

theorem filter_entered (hp : ∀ r q, p r = true → p q = true → r.range = q.range)
    (rules : List Rule) : (entered (schedule rules)).filter p = (rules.filter acts).filter p := by
  have hsorted : (((rules.filter acts).filter p).map RuleStep.enter).Pairwise
      fun a b => notAfter a b = true := by
    rw [pairwise_map]
    refine List.Pairwise.imp_of_mem ?_ (pairwise_of_forall (fun _ _ => trivial))
    intro r q hr hq _
    have hrange := hp r q (mem_filter.mp hr).2 (mem_filter.mp hq).2
    simp [notAfter, offset, hrange]
  have hsub := sublist_mergeSort notAfter_trans notAfter_total hsorted
    (map_enter_sublist p (rules.filter acts))
  rw [← schedule_eq] at hsub
  have hentered := (entered_sublist hsub).filter p
  rw [entered_map_enter, filter_filter] at hentered
  simp only [Bool.and_self] at hentered
  exact (hentered.eq_of_length ((entered_schedule_perm rules).filter p).length_eq.symm).symm

theorem acts_of_coversAt (h : r.coversAt code off = true) : acts r = true := by
  simp only [coversAt, covers, Bool.and_eq_true, Bool.not_eq_true',
    decide_eq_true_eq] at h
  simp only [acts, Span.length, Bool.and_eq_true, Bool.not_eq_true', bne_iff_ne]
  refine ⟨h.1.1, ?_⟩
  omega

theorem filter_lint_covers (rules : List Rule) (code : Bytes) (off : Int) :
    ((entered (schedule rules)).filter fun r => r.range.covers off).filter
    (fun r => r.lint == code) =
      (entered (schedule rules)).filter (coversAt code off) := by
  rw [filter_filter]
  refine filter_congr fun r hr => ?_
  have hacts := (mem_filter.mp ((entered_schedule_perm rules).mem_iff.mp hr)).2
  simp only [acts, Bool.and_eq_true, Bool.not_eq_true'] at hacts
  simp [coversAt, hacts.1]

theorem mem_filter_coversAt : r ∈ (entered (schedule rules)).filter (coversAt code off) ↔
      r ∈ rules ∧ r.coversAt code off = true := by
  rw [mem_filter, (entered_schedule_perm rules).mem_iff, mem_filter]
  constructor
  · exact fun h => ⟨h.1.1, h.2⟩
  · exact fun h => ⟨⟨h.1, acts_of_coversAt h.2⟩, h.2⟩

/-- All other rules around an offset began earlier than the last one, and their ranges contain the
offset as well. -/
theorem encloses_last (hrules : Nestable (rules.filter acts)) {init : List Rule} {q : Rule}
    (hinit : (entered (schedule rules)).filter (coversAt code off) = init ++ [r])
    (hq : q ∈ rules) (hcovers : q.coversAt code off = true) :
    q.range.encloses r.range = true := by
  have hqmem : q ∈ (entered (schedule rules)).filter (coversAt code off) :=
    mem_filter_coversAt.mpr ⟨hq, hcovers⟩
  rw [hinit, mem_append, mem_singleton] at hqmem
  rcases hqmem with hqmem | rfl
  · obtain ⟨hmem, hr⟩ := mem_filter_coversAt.mp
      (hinit ▸ mem_append_right _ (mem_singleton_self r))
    have hpair := (sorted_entered (sorted_schedule rules)).filter (coversAt code off)
    rw [hinit, pairwise_append] at hpair
    have hbefore := of_notAfter_enter (hpair.2.2 q hqmem r (mem_singleton_self r))
    have hlaminar := hrules.laminar q (mem_filter.mpr ⟨hq, acts_of_coversAt hcovers⟩)
      r (mem_filter.mpr ⟨hmem, acts_of_coversAt hr⟩)
    simp only [coversAt, covers, Bool.and_eq_true, decide_eq_true_eq] at hr hcovers
    unfold Laminar at hlaminar
    rw [encloses_iff, encloses_iff] at hlaminar
    rw [encloses_iff]
    omega
  · exact encloses_iff.mpr ⟨Nat.le_refl _, Nat.le_refl _⟩

/-- Among the rules around an offset that have one range the order is that of `rules`. -/
theorem filter_coversAt_range (rules : List Rule) (code : Bytes) (off : Int) (range : Span) :
    ((entered (schedule rules)).filter (coversAt code off)).filter (fun q => q.range == range) =
      rules.filter fun q => q.coversAt code off && q.range == range := by
  have hstable := filter_entered (p := fun q => q.coversAt code off && q.range == range)
    (fun a b ha hb => by simp_all) rules
  rw [filter_filter] at hstable
  simp only [filter_filter, Bool.and_comm (_ == range)]
  rw [hstable]
  refine filter_congr fun q _ => ?_
  cases hq : q.coversAt code off with
  | false => simp
  | true => simp [acts_of_coversAt hq]

theorem governs_last (hrules : Nestable (rules.filter acts))
    (h : ((entered (schedule rules)).filter (coversAt code off)).getLast? = some r) :
    Governs rules code off (some r) := by
  obtain ⟨init, hinit⟩ := getLast?_eq_some_iff.mp h
  have hr := (mem_filter_coversAt.mp (hinit ▸ mem_append_right _ (mem_singleton_self r))).2
  have hsame : (rules.filter fun q => q.coversAt code off && q.range == r.range).getLast? =
      some r := by
    rw [← filter_coversAt_range, hinit, filter_append, filter_cons_of_pos (by simp), filter_nil,
      getLast?_concat]
  obtain ⟨before, after, hsplit, -, hafter⟩ := exists_split_of_getLast?_filter hsame
  refine .innermost hsplit hr (fun q hq => encloses_last hrules hinit hq) fun q hq hcovers => ?_
  simpa [hcovers] using hafter q hq

/-- The rule that the sweep finds for a code at an offset. -/
def found (rules : List Rule) (code : Bytes) (off : Int) : Option Rule :=
  ((upTo off (schedule rules)).foldl act [] ++ (rules.filter Rule.wholeFile).reverse).find?
    fun r => r.lint == code

/-- The rule that a look at the stack finds is the governing one. -/
theorem governs_found (hrules : Nestable (rules.filter acts)) (code : Bytes) (off : Int) :
    Governs rules code off (found rules code off) := by
  rw [found, stack_eq hrules, find?_append, ← getLast?_filter, ← getLast?_filter,
    filter_lint_covers]
  cases hlast : ((entered (schedule rules)).filter (coversAt code off)).getLast? with
  | some r => exact governs_last hrules hlast
  | none =>
    -- Only where no rule covers the place do those for the whole file count.
    have hnone : ∀ q ∈ rules, q.coversAt code off = false := by
      intro q hq
      rw [getLast?_eq_none_iff] at hlast
      cases hcovers : q.coversAt code off with
      | false => rfl
      | true =>
        have := mem_filter_coversAt.mpr ⟨hq, hcovers⟩
        rw [hlast] at this
        cases this
    have hgeneral : (rules.filter wholeFile).filter (fun r => r.lint == code) =
        rules.filter (isGeneral code) := by
      rw [filter_filter]
      exact filter_congr fun r _ => Bool.and_comm _ _
    rw [hgeneral, Option.none_or]
    cases hfound : (rules.filter (isGeneral code)).getLast? with
    | some r =>
      obtain ⟨before, after, hsplit, hr, hafter⟩ := exists_split_of_getLast?_filter hfound
      exact .general hnone hsplit hr hafter
    | none =>
      rw [getLast?_eq_none_iff, filter_eq_nil_iff] at hfound
      exact .none hnone fun q hq => by simpa using hfound q hq

/-! ## The findings that remain -/

/-- The sweep judges each finding by the rule found for its place. -/
theorem sweep_eq (rules : List Rule) {done ahead : List RuleStep} {ds : List Diagnostic}
    (hsplit : schedule rules = done ++ ahead)
    (hdone : ∀ d ∈ ds, ∀ s ∈ done, (s.offset : Int) ≤ d.primary.start)
    (hsorted : ds.Pairwise fun a b => a.primary.start ≤ b.primary.start) :
    sweep (rules.filter wholeFile).reverse (done.foldl act []) ahead ds =
      ds.filterMap fun d => judge (found rules d.code d.primary.start) d := by
  induction ds generalizing done ahead with
  | nil => rfl
  | cons d ds ih =>
    rw [forall_mem_cons] at hdone
    rw [pairwise_cons] at hsorted
    -- Up to the diagnostic there are the steps taken and some of those ahead.
    have hupTo : upTo d.primary.start (schedule rules) = done ++ upTo d.primary.start ahead := by
      rw [upTo, hsplit, takeWhile_append_of_pos (by simpa using hdone.1)]
      rfl
    have hfound : ((done ++ upTo d.primary.start ahead).foldl act [] ++
        (rules.filter wholeFile).reverse).find? (fun r => r.lint == d.code) =
        found rules d.code d.primary.start := by
      rw [found, hupTo]
    rw [sweep, ← upTo, ← foldl_append, hfound, ih]
    · cases hjudge : judge (found rules d.code d.primary.start) d <;> simp [hjudge]
    · rw [hsplit, append_assoc, upTo, takeWhile_append_dropWhile]
    · intro d' hd' s hs
      rw [mem_append] at hs
      rcases hs with hs | hs
      · exact hdone.2 d' hd' s hs
      · have h₁ := offset_le_of_mem_upTo s hs
        have h₂ := hsorted.1 d' hd'
        omega
    · exact hsorted.2

end RuleStep

end LuaLint
