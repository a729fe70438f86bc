import LuaLint.Diagnostic.Basic
import LuaLint.Proofs.Text.Names

/-!
# The order of diagnostics

Diagnostics are sorted by place and code, and those that agree in both keep the order in which they
were found. Leaving some diagnostics out therefore makes no difference to the order of the others:
it does not matter whether it is done before or after they are sorted.

Main statements: `eq_of_tied_filters`, `filter_mergeSort`, `Diagnostic.sorted_sort`.
-/

namespace LuaLint

open List

/-! ## Stable sorting -/

section Stable

variable {α : Type} {le : α → α → Bool}

/-- Neither of two elements has to stand before the other. -/
def Tied (le : α → α → Bool) (a b : α) : Bool := le a b && le b a

variable (htrans : ∀ a b c, le a b = true → le b c = true → le a c = true)
  (htotal : ∀ a b, (le a b || le b a) = true)

include htrans htotal

theorem filter_tied_mergeSort (a : α) (xs : List α) :
    (xs.mergeSort le).filter (Tied le a) = xs.filter (Tied le a) := by
  have hsorted : (xs.filter (Tied le a)).Pairwise fun b c => le b c = true := by
    refine List.Pairwise.imp_of_mem ?_ (pairwise_of_forall fun _ _ => trivial)
    intro b c hb hc _
    have hb := (mem_filter.mp hb).2
    have hc := (mem_filter.mp hc).2
    simp only [Tied, Bool.and_eq_true] at hb hc
    exact htrans b a c hb.2 hc.1
  have hsub : (xs.filter (Tied le a)).Sublist (xs.mergeSort le) :=
    sublist_mergeSort htrans htotal hsorted filter_sublist
  have hfilter := hsub.filter (Tied le a)
  rw [filter_filter] at hfilter
  simp only [Bool.and_self] at hfilter
  -- A sublist of the same length is the whole list.
  have hlength := ((mergeSort_perm xs le).filter (Tied le a)).length_eq
  exact (hfilter.eq_of_length hlength.symm).symm

omit htrans in
/-- Sorted lists are equal if they agree on each class of ties. -/
theorem eq_of_tied_filters {xs ys : List α} (hxs : xs.Pairwise fun a b => le a b = true)
    (hys : ys.Pairwise fun a b => le a b = true)
    (h : ∀ a, xs.filter (Tied le a) = ys.filter (Tied le a)) : xs = ys := by
  have hrefl : ∀ a, le a a = true := fun a => by simpa using htotal a a
  have hself : ∀ a, Tied le a a = true := fun a => by simp [Tied, hrefl]
  have hmem : ∀ {us vs : List α}, (∀ a, us.filter (Tied le a) = vs.filter (Tied le a)) →
      ∀ a ∈ us, a ∈ vs := by
    intro us vs h a ha
    have : a ∈ us.filter (Tied le a) := mem_filter.mpr ⟨ha, hself a⟩
    rw [h a] at this
    exact (mem_filter.mp this).1
  induction xs generalizing ys with
  | nil =>
    cases ys with
    | nil => rfl
    | cons b ys =>
      have := hmem (fun a => (h a).symm) b (mem_cons_self ..)
      cases this
  | cons a xs ih =>
    cases ys with
    | nil =>
      have := hmem h a (mem_cons_self ..)
      cases this
    | cons b ys =>
      rw [pairwise_cons] at hxs hys
      -- Each head is in the other list and so not before the other head.
      have hab : le a b = true := by
        rcases mem_cons.mp (hmem (fun a => (h a).symm) b (mem_cons_self ..)) with rfl | hb
        · exact hrefl b
        · exact hxs.1 b hb
      have hba : le b a = true := by
        rcases mem_cons.mp (hmem h a (mem_cons_self ..)) with rfl | ha
        · exact hrefl a
        · exact hys.1 a ha
      have hheads := h a
      rw [filter_cons_of_pos (hself a), filter_cons_of_pos (by simp [Tied, hab, hba])]
        at hheads
      obtain rfl := (cons.inj hheads).1
      congr 1
      apply ih hxs.2 hys.2
      intro c
      have hc := h c
      rw [filter_cons, filter_cons] at hc
      split at hc
      · exact (cons.inj hc).2
      · exact hc

/-- Leaving out and sorting may change places. -/
theorem filter_mergeSort (p : α → Bool) (xs : List α) :
    (xs.mergeSort le).filter p = (xs.filter p).mergeSort le := by
  apply eq_of_tied_filters htotal
  · exact (pairwise_mergeSort htrans htotal xs).filter p
  · exact pairwise_mergeSort htrans htotal _
  · intro a
    have hswap : ∀ us : List α, (us.filter p).filter (Tied le a) =
        (us.filter (Tied le a)).filter p := by
      intro us
      rw [filter_filter, filter_filter]
      simp only [Bool.and_comm]
    rw [filter_tied_mergeSort htrans htotal, hswap, hswap, filter_tied_mergeSort htrans htotal]

end Stable

/-! ## Diagnostics -/

namespace Bytes

theorem notAfter_iff {a b : Bytes} : notAfter a b = true ↔ a ≤ b := by
  rw [notAfter, Bool.not_eq_true', ← Bool.not_eq_true, before_iff_lt]
  exact List.not_lt

end Bytes

namespace Diagnostic

/-- The diagnostic may stand before another: its primary label begins earlier, or together with the
other and ends earlier, or it has the same range and its code comes first or is the same. -/
def Precedes (a b : Diagnostic) : Prop :=
  a.primary.start < b.primary.start ∨ a.primary.start = b.primary.start ∧
    (a.primary.stop < b.primary.stop ∨ a.primary.stop = b.primary.stop ∧ a.code ≤ b.code)

theorem notAfter_iff {a b : Diagnostic} : notAfter a b = true ↔ a.Precedes b := by
  unfold notAfter Precedes
  split
  · rename_i hstart
    have hstart : a.primary.start ≠ b.primary.start := by simpa using hstart
    simp [hstart]
  · rename_i hstart
    have hstart : a.primary.start = b.primary.start := by simpa using hstart
    split
    · rename_i hstop
      have hstop : a.primary.stop ≠ b.primary.stop := by simpa using hstop
      simp [hstart, hstop]
    · rename_i hstop
      have hstop : a.primary.stop = b.primary.stop := by simpa using hstop
      simp [hstart, hstop, Bytes.notAfter_iff]

theorem Precedes.trans {a b c : Diagnostic} (hab : a.Precedes b) (hbc : b.Precedes c) :
    a.Precedes c := by
  unfold Precedes at *
  rcases hab with hab | ⟨hab, hab' | ⟨hab', hcode⟩⟩ <;>
    rcases hbc with hbc | ⟨hbc, hbc' | ⟨hbc', hcode'⟩⟩ <;> try omega
  exact .inr ⟨hab.trans hbc, .inr ⟨hab'.trans hbc', List.le_trans hcode hcode'⟩⟩

theorem Precedes.total (a b : Diagnostic) : a.Precedes b ∨ b.Precedes a := by
  unfold Precedes
  rcases Int.lt_trichotomy a.primary.start b.primary.start with hstart | hstart | hstart
  · exact .inl (.inl hstart)
  · rcases Int.lt_trichotomy a.primary.stop b.primary.stop with hstop | hstop | hstop
    · exact .inl (.inr ⟨hstart, .inl hstop⟩)
    · rcases List.le_total a.code b.code with hcode | hcode
      · exact .inl (.inr ⟨hstart, .inr ⟨hstop, hcode⟩⟩)
      · exact .inr (.inr ⟨hstart.symm, .inr ⟨hstop.symm, hcode⟩⟩)
    · exact .inr (.inr ⟨hstart.symm, .inl hstop⟩)
  · exact .inr (.inl hstart)

theorem notAfter_trans (a b c : Diagnostic) (hab : notAfter a b = true)
    (hbc : notAfter b c = true) :
    notAfter a c = true :=
  notAfter_iff.mpr ((notAfter_iff.mp hab).trans (notAfter_iff.mp hbc))

theorem notAfter_total (a b : Diagnostic) : (notAfter a b || notAfter b a) = true := by
  rw [Bool.or_eq_true, notAfter_iff, notAfter_iff]
  exact Precedes.total a b

theorem filter_sort (p : Diagnostic → Bool) (ds : List Diagnostic) :
    (sort ds).filter p = sort (ds.filter p) :=
  filter_mergeSort notAfter_trans notAfter_total p ds

/-- Reported diagnostics are in order. -/
theorem sorted_sort (ds : List Diagnostic) : (sort ds).Pairwise Precedes :=
  (pairwise_mergeSort notAfter_trans notAfter_total ds).imp notAfter_iff.mp

theorem mem_sort {d : Diagnostic} {ds : List Diagnostic} : d ∈ sort ds ↔ d ∈ ds :=
  mem_mergeSort

end Diagnostic

end LuaLint
