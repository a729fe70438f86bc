import LuaLint.Directive.Apply
import LuaLint.Proofs.Syntax.Nesting

/-!
# The sweep over findings

The sweep pops its stack without looking. That it pops the right rule rests on two things: the
ranges of the rules are nested, and in the order of changes ends stand before beginnings and larger
ranges before smaller ones. So the stack holds the rules whose ranges contain the place that has
been reached, in the order in which they began.

Main statements: `RuleStep.Swept.step`, `RuleStep.stack_eq`.
-/

namespace LuaLint

open List

variable {rules : List Rule} {steps : List RuleStep} {off : Nat} {r : Rule}

namespace RuleStep

/-! ## The order of changes -/

/-- The rules that begin within some changes, in order. -/
def entered (steps : List RuleStep) : List Rule :=
  steps.filterMap fun
    | .enter r => some r
    | .leave _ => none

def changes (r : Rule) : List RuleStep := [.enter r, .leave r.range.stop]

def acts (r : Rule) : Bool := !r.wholeFile && r.range.length != 0

theorem schedule_eq (rules : List Rule) :
    schedule rules = ((rules.filter acts).flatMap changes).mergeSort notAfter := rfl

@[simp] theorem entered_nil : entered [] = [] := rfl

@[simp] theorem entered_append (steps steps' : List RuleStep) :
    entered (steps ++ steps') = entered steps ++ entered steps' := filterMap_append

@[simp] theorem entered_cons_enter (r : Rule) (steps : List RuleStep) :
    entered (.enter r :: steps) = r :: entered steps := rfl

@[simp] theorem entered_cons_leave (off : Nat) (steps : List RuleStep) :
    entered (.leave off :: steps) = entered steps := rfl

theorem mem_entered : r ∈ entered steps ↔ .enter r ∈ steps := by
  unfold entered
  rw [mem_filterMap]
  constructor
  · rintro ⟨step, hstep, h⟩
    cases step with
    | enter q =>
      cases h
      exact hstep
    | leave off => cases h
  · exact fun h => ⟨.enter r, h, rfl⟩

theorem entered_sublist {steps' : List RuleStep} (h : steps.Sublist steps') :
    (entered steps).Sublist (entered steps') :=
  h.filterMap _

theorem entered_perm {steps' : List RuleStep} (h : steps.Perm steps') :
    (entered steps).Perm (entered steps') :=
  h.filterMap _

theorem entered_map_enter (rules : List Rule) : entered (rules.map .enter) = rules := by
  induction rules with
  | nil => rfl
  | cons r rules ih => rw [map_cons, entered_cons_enter, ih]

theorem entered_flatMap_changes (rules : List Rule) : entered (rules.flatMap changes) = rules := by
  induction rules with
  | nil => rfl
  | cons r rules ih =>
    rw [flatMap_cons, entered_append, ih]
    rfl

theorem notAfter_trans (a b c : RuleStep) (hab : notAfter a b = true) (hbc : notAfter b c = true) :
    notAfter a c = true := by
  unfold notAfter at *
  cases a <;> cases b <;> cases c <;> simp only [offset] at * <;> grind

theorem notAfter_total (a b : RuleStep) : (notAfter a b || notAfter b a) = true := by
  unfold notAfter
  cases a <;> cases b <;> simp only [offset] <;> grind

theorem offset_le_of_notAfter {a b : RuleStep} (h : notAfter a b = true) : a.offset ≤ b.offset := by
  unfold notAfter at h
  grind

theorem lt_of_notAfter_leave (h : notAfter (.enter r) (.leave off) = true) :
    r.range.start < off := by
  simp only [notAfter, offset] at h
  grind

theorem of_notAfter_enter {q : Rule} (h : notAfter (.enter q) (.enter r) = true) :
    q.range.start < r.range.start ∨
      q.range.start = r.range.start ∧ r.range.stop ≤ q.range.stop := by
  simp only [notAfter, offset] at h
  grind

theorem sorted_schedule (rules : List Rule) :
    (schedule rules).Pairwise fun a b => notAfter a b = true :=
  pairwise_mergeSort notAfter_trans notAfter_total _

theorem sorted_entered (h : steps.Pairwise fun a b => notAfter a b = true) :
    (entered steps).Pairwise fun q r => notAfter (.enter q) (.enter r) = true := by
  rw [entered, pairwise_filterMap]
  refine h.imp ?_
  intro a b hab q hq r hr
  cases a <;> cases b <;> simp_all

theorem schedule_perm (rules : List Rule) :
    (schedule rules).Perm ((rules.filter acts).flatMap changes) :=
  mergeSort_perm _ _

theorem entered_schedule_perm (rules : List Rule) :
    (entered (schedule rules)).Perm (rules.filter acts) := by
  have := entered_perm (schedule_perm rules)
  rwa [entered_flatMap_changes] at this

/-! ## One change -/

/-- Rules whose ranges are not empty and nested. -/
structure Nestable (rules : List Rule) : Prop where
  lt : ∀ r ∈ rules, r.range.start < r.range.stop
  laminar : ∀ r ∈ rules, ∀ q ∈ rules, r.range.Laminar q.range

theorem Nestable.of_perm {rules' : List Rule} (h : Nestable rules')
    (hperm : rules.Perm rules') : Nestable rules where
  lt r hr := h.lt r (hperm.mem_iff.mp hr)
  laminar r hr q hq := h.laminar r (hperm.mem_iff.mp hr) q (hperm.mem_iff.mp hq)

/-- The state of a sweep after the changes `done` and before the changes `ahead`. -/
structure Swept (done ahead : List RuleStep) (stack : List Rule) : Prop where
  /-- What is ahead: the ends of the rules in force, and both ends of all others. -/
  ahead : ahead.Perm
    (stack.map (fun r => .leave r.range.stop) ++ (entered ahead).flatMap changes)
  /-- The rules in force lie on the stack in the order in which they began. -/
  order : stack.reverse.Sublist (entered done)
  past : ∃ ended, (entered done).Perm (stack ++ ended) ∧
    ∀ r ∈ ended, .leave r.range.stop ∈ done
  /-- A rule ends before those below it. -/
  nested : stack.Pairwise fun r q => r.range.stop ≤ q.range.stop

namespace Swept

variable {done ahead : List RuleStep} {stack : List Rule}

theorem mem_entered_of_mem (h : Swept done ahead stack) (hr : r ∈ stack) : r ∈ entered done :=
  h.order.subset (mem_reverse.mpr hr)

theorem leave_mem_ahead (h : Swept done ahead stack) (hr : r ∈ stack) :
    .leave r.range.stop ∈ ahead :=
  h.ahead.mem_iff.mpr (mem_append_left _ (mem_map_of_mem hr))

theorem stop_le (h : Swept done (.enter r :: ahead) stack)
    (hrules : Nestable (entered (done ++ .enter r :: ahead)))
    (hsorted : (done ++ .enter r :: ahead).Pairwise fun a b => notAfter a b = true)
    {q : Rule} (hq : q ∈ stack) : r.range.stop ≤ q.range.stop := by
  rw [pairwise_append, pairwise_cons] at hsorted
  obtain ⟨-, ⟨hfirst, -⟩, hdone⟩ := hsorted
  have hqdone := h.mem_entered_of_mem hq
  have hqmem : q ∈ entered (done ++ .enter r :: ahead) := by simp [hqdone]
  have hrmem : r ∈ entered (done ++ .enter r :: ahead) := by simp
  -- It begins before the other one ends, and not before that one begins.
  have hleave : .leave q.range.stop ∈ ahead := by
    have := h.leave_mem_ahead hq
    simpa using this
  have hbefore := lt_of_notAfter_leave (hfirst _ hleave)
  have hafter := of_notAfter_enter
    (hdone _ (mem_entered.mp hqdone) _ (mem_cons_self ..))
  have hlaminar := hrules.laminar r hrmem q hqmem
  have hlt := hrules.lt r hrmem
  have hlt' := hrules.lt q hqmem
  unfold Span.Laminar at hlaminar
  rw [Span.encloses_iff, Span.encloses_iff] at hlaminar
  omega

theorem leave_innermost (h : Swept done (.leave off :: ahead) stack)
    (hrules : Nestable (entered (done ++ .leave off :: ahead)))
    (hsorted : (done ++ .leave off :: ahead).Pairwise fun a b => notAfter a b = true) :
    ∃ r rest, stack = r :: rest ∧ r.range.stop = off := by
  rw [pairwise_append, pairwise_cons] at hsorted
  obtain ⟨-, ⟨hfirst, -⟩, -⟩ := hsorted
  have hmem := h.ahead.mem_iff.mp (mem_cons_self ..)
  rw [mem_append, mem_map, mem_flatMap] at hmem
  rcases hmem with ⟨q, hq, hoff⟩ | ⟨q, hq, hoff⟩
  · -- The range of some rule in force ends here, and no range ends earlier.
    cases stack with
    | nil => cases hq
    | cons r rest =>
      refine ⟨r, rest, rfl, ?_⟩
      cases hoff
      have hle : r.range.stop ≤ q.range.stop := by
        rcases mem_cons.mp hq with rfl | hq
        · exact Nat.le_refl _
        · exact (pairwise_cons.mp h.nested).1 q hq
      have hleave := h.leave_mem_ahead (mem_cons_self ..)
      rcases mem_cons.mp hleave with heq | hleave
      · exact RuleStep.leave.inj heq
      · have := offset_le_of_notAfter (hfirst _ hleave)
        exact Nat.le_antisymm hle this
  · -- The range of a rule that has not begun cannot end.
    have hq' : q ∈ entered ahead := by simpa using hq
    have hstop : off = q.range.stop := by simpa [changes] using hoff
    have hle : off ≤ q.range.start :=
      offset_le_of_notAfter (hfirst _ (mem_entered.mp hq'))
    have hlt := hrules.lt q (by simp [hq'])
    omega

/-- A change keeps the stack in step with the ranges that are open. -/
theorem step {change : RuleStep} (h : Swept done (change :: ahead) stack)
    (hrules : Nestable (entered (done ++ change :: ahead)))
    (hsorted : (done ++ change :: ahead).Pairwise fun a b => notAfter a b = true) :
    Swept (done ++ [change]) ahead (act stack change) := by
  obtain ⟨ended, hended, hdone⟩ := h.past
  cases change with
  | enter r =>
    refine ⟨?_, ?_, ⟨ended, ?_, ?_⟩, ?_⟩
    · have hperm := h.ahead
      rw [entered_cons_enter, flatMap_cons, changes, cons_append, cons_append, nil_append] at hperm
      have hmove := hperm.trans (perm_middle.trans (perm_middle.cons _))
      exact hmove.cons_inv
    · rw [act, reverse_cons, entered_append]
      exact h.order.append (.refl _)
    · rw [act, entered_append]
      exact (perm_append_singleton _ _).trans (hended.cons r)
    · exact fun q hq => mem_append_left _ (hdone q hq)
    · exact pairwise_cons.mpr ⟨fun q hq => h.stop_le hrules hsorted hq, h.nested⟩
  | leave off =>
    obtain ⟨r, rest, rfl, rfl⟩ := h.leave_innermost hrules hsorted
    refine ⟨?_, ?_, ⟨r :: ended, ?_, ?_⟩, ?_⟩
    · have hperm := h.ahead
      rw [map_cons, cons_append, entered_cons_leave] at hperm
      exact hperm.cons_inv
    · rw [entered_append, entered_cons_leave, entered_nil, append_nil]
      refine List.Sublist.trans ?_ h.order
      rw [reverse_cons]
      exact sublist_append_left _ _
    · rw [entered_append, entered_cons_leave, entered_nil, append_nil]
      exact hended.trans perm_middle.symm
    · rw [forall_mem_cons]
      exact ⟨by simp, fun q hq => mem_append_left _ (hdone q hq)⟩
    · exact (pairwise_cons.mp h.nested).2

/-! ## Whole sweeps -/

theorem run (h : Swept done ahead stack) {later : List RuleStep} (hahead : ahead = steps ++ later)
    (hrules : Nestable (entered (done ++ ahead)))
    (hsorted : (done ++ ahead).Pairwise fun a b => notAfter a b = true) :
    Swept (done ++ steps) later (steps.foldl act stack) := by
  induction steps generalizing done ahead stack with
  | nil =>
    subst hahead
    simpa using h
  | cons change steps ih =>
    subst hahead
    have hnext := h.step hrules hsorted
    rw [cons_append, append_cons] at hrules hsorted
    have := ih hnext rfl hrules hsorted
    rwa [append_cons]

/-- Between the changes up to an offset and those behind it, the rules in force are the ones that
contain the offset. -/
theorem reverse_eq_filter (h : Swept done ahead stack) {off : Int}
    (hdone : ∀ s ∈ done, (s.offset : Int) ≤ off) (hahead : ∀ s ∈ ahead, off < s.offset) :
    stack.reverse = (entered done).filter fun r => r.range.covers off := by
  -- All of them have begun, so that only their ends matter.
  have hcovers : ∀ r ∈ entered done, r.range.covers off = decide (off < r.range.stop) := by
    intro r hr
    have : (r.range.start : Int) ≤ off := hdone _ (mem_entered.mp hr)
    simp [Span.covers, this]
  have hin : ∀ r ∈ stack, r.range.covers off = true := by
    intro r hr
    rw [hcovers r (h.mem_entered_of_mem hr)]
    have : off < r.range.stop := hahead _ (h.leave_mem_ahead hr)
    simpa using this
  obtain ⟨ended, hended, hleft⟩ := h.past
  have hout : ended.filter (fun r => r.range.covers off) = [] := by
    rw [filter_eq_nil_iff]
    intro r hr
    have : (r.range.stop : Int) ≤ off := hdone _ (hleft r hr)
    rw [hcovers r (hended.mem_iff.mpr (mem_append_right _ hr))]
    simp
    omega
  have hlength : stack.reverse.length =
      ((entered done).filter fun r => r.range.covers off).length := by
    rw [(hended.filter _).length_eq, filter_append, hout, append_nil, filter_eq_self.mpr hin,
      length_reverse]
  have hsub := h.order.filter fun r => r.range.covers off
  rw [filter_eq_self.mpr (by simpa using hin)] at hsub
  exact hsub.eq_of_length hlength

end Swept

theorem swept_schedule (rules : List Rule) : Swept [] (schedule rules) [] where
  ahead := (schedule_perm rules).trans ((entered_schedule_perm rules).symm.flatMap_right changes)
  order := .slnil
  past := ⟨[], .nil, by simp⟩
  nested := .nil

theorem stack_ne_nil (hrules : Nestable (rules.filter acts)) {before after : List RuleStep}
    (h : schedule rules = before ++ .leave off :: after) : before.foldl act [] ≠ [] := by
  have hall : Nestable (entered (schedule rules)) :=
    hrules.of_perm (entered_schedule_perm rules)
  have hsorted := sorted_schedule rules
  have hswept := (swept_schedule rules).run h hall hsorted
  rw [h] at hall hsorted
  obtain ⟨r, rest, hstack, -⟩ := hswept.leave_innermost hall hsorted
  rw [hstack]
  exact cons_ne_nil _ _

def upTo (off : Int) (steps : List RuleStep) : List RuleStep :=
  steps.takeWhile fun s => (s.offset : Int) ≤ off

theorem offset_le_of_mem_upTo {off : Int} : ∀ s ∈ upTo off steps, (s.offset : Int) ≤ off := by
  intro s hs
  simpa using all_eq_true.mp all_takeWhile s hs

theorem lt_offset_of_mem_dropWhile (off : Int)
    (hsorted : steps.Pairwise fun a b => notAfter a b = true) :
    ∀ s ∈ steps.dropWhile (fun s => (s.offset : Int) ≤ off), off < s.offset := by
  induction steps with
  | nil => simp
  | cons a steps ih =>
    rw [pairwise_cons] at hsorted
    rw [dropWhile_cons]
    split
    · exact ih hsorted.2
    · rename_i ha
      have ha' : off < a.offset := by simpa using ha
      rw [forall_mem_cons]
      refine ⟨ha', fun s hs => ?_⟩
      have := offset_le_of_notAfter (hsorted.1 s hs)
      omega

/-- The rules whose ranges contain an offset, in the order in which they begin, are the rules in
force there. -/
theorem stack_eq (hrules : Nestable (rules.filter acts)) (off : Int) :
    (upTo off (schedule rules)).foldl act [] =
      ((entered (schedule rules)).filter fun r => r.range.covers off).reverse := by
  have hsorted := sorted_schedule rules
  have hsplit : schedule rules = upTo off (schedule rules) ++
      (schedule rules).dropWhile fun s => (s.offset : Int) ≤ off :=
    takeWhile_append_dropWhile.symm
  have hbehind := lt_offset_of_mem_dropWhile off hsorted
  have hswept := (swept_schedule rules).run hsplit
    (hrules.of_perm (entered_schedule_perm rules)) hsorted
  rw [nil_append] at hswept
  have hreverse := hswept.reverse_eq_filter offset_le_of_mem_upTo hbehind
  -- Nothing that begins later contains the offset.
  have hlater : (entered ((schedule rules).dropWhile fun s => (s.offset : Int) ≤ off)).filter
      (fun r => r.range.covers off) = [] := by
    rw [filter_eq_nil_iff]
    intro r hr
    have : off < r.range.start := hbehind _ (mem_entered.mp hr)
    simp [Span.covers]
    omega
  have hall : (entered (schedule rules)).filter (fun r => r.range.covers off) =
      (entered (upTo off (schedule rules))).filter fun r => r.range.covers off := by
    conv_lhs => rw [hsplit]
    rw [entered_append, filter_append, hlater, append_nil]
  rw [hall, ← hreverse, reverse_reverse]

end RuleStep

end LuaLint
