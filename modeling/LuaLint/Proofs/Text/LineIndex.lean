import Mathlib.Data.List.Induction
import Mathlib.Data.List.TakeWhile
import LuaLint.Source.Lines
import LuaLint.Editor.Position

/-!
# Ways to find a line

A message finds the line of an offset by bisection in an index of the lines, and an editor position
by a walk over the text in front of the offset. Both come to the number of line feeds in front of
it, and to the place behind the last of these.

Main statements: `SourceText.search_eq`, `SourceText.lineOf_eq`, `EditorPosition.ofOffset_eq`.
-/

namespace LuaLint

open List Bytes

variable {s before above after : Bytes} {b : UInt8}

namespace Bytes

/-- What stands behind the last line feed of a text. -/
def lastLine (s : Bytes) : Bytes := (s.reverse.takeWhile (· != 10)).reverse

theorem lastLine_append (s : Bytes) {t : Bytes} (h : 10 ∉ t) :
    lastLine (s ++ t) = lastLine s ++ t := by
  have hall : ∀ b ∈ t.reverse, (b != 10) = true := by
    intro b hb
    exact bne_iff_ne.mpr fun heq => h (heq ▸ mem_reverse.mp hb)
  rw [lastLine, lastLine, reverse_append, takeWhile_append_of_pos hall,
    reverse_append, reverse_reverse]

theorem lastLine_of_not_mem (h : 10 ∉ s) : lastLine s = s :=
  lastLine_append [] h

theorem lastLine_cons_of_mem (h : 10 ∈ b :: s) : lastLine (b :: s) = lastLine s := by
  rw [lastLine, lastLine, reverse_cons, takeWhile_append]
  split
  · rename_i hall
    -- The rest of the text has no line feed, so that the first byte is one.
    have hnone : ∀ c ∈ s.reverse, (c != 10) = true := by
      rw [← takeWhile_eq_self_iff]
      exact (List.takeWhile_prefix _).eq_of_length hall
    rcases mem_cons.mp h with rfl | hmem
    · rw [takeWhile_eq_self_iff.mpr hnone]
      simp
    · exact absurd (hnone 10 (mem_reverse.mpr hmem)) (by decide)
  · rfl

theorem not_mem_lastLine (s : Bytes) : 10 ∉ lastLine s := by
  intro h
  have hmem := mem_takeWhile_imp (mem_reverse.mp h)
  exact absurd hmem (by decide)

theorem lastLine_suffix (s : Bytes) : lastLine s <:+ s := by
  rw [← List.reverse_prefix, lastLine, reverse_reverse]
  exact List.takeWhile_prefix _

theorem lastLine_eq_nil (h : before = [] ∨ ∃ lines, before = lines ++ [10]) :
    lastLine before = [] := by
  rcases h with rfl | ⟨lines, rfl⟩
  · rfl
  · simp [lastLine]

/-- The lines above the last one. -/
theorem exists_above (s : Bytes) :
    ∃ above, s = above ++ lastLine s ∧ (above = [] ∨ ∃ lines, above = lines ++ [10]) := by
  induction s using reverseRec with
  | nil => exact ⟨[], rfl, .inl rfl⟩
  | append_singleton s b ih =>
    by_cases hb : b = 10
    · refine ⟨s ++ [b], ?_, .inr ⟨s, by rw [hb]⟩⟩
      rw [lastLine_eq_nil (.inr ⟨s, by rw [hb]⟩), append_nil]
    · obtain ⟨above, hs, habove⟩ := ih
      refine ⟨above, ?_, habove⟩
      rw [lastLine_append s (by simpa using Ne.symm hb), ← append_assoc, ← hs]

end Bytes

/-! ## The line index -/

namespace SourceText

theorem startsFrom_append (off : Nat) (s t : Bytes) :
    startsFrom off (s ++ t) = startsFrom off s ++ startsFrom (off + s.length) t := by
  induction s generalizing off with
  | nil => rfl
  | cons b s ih =>
    rw [cons_append, startsFrom, startsFrom, ih, length_cons, Nat.add_right_comm, Nat.add_assoc]
    split <;> rfl

theorem length_startsFrom (off : Nat) (s : Bytes) : (startsFrom off s).length = newlines s := by
  induction s generalizing off with
  | nil => rfl
  | cons b s ih =>
    rw [startsFrom, newlines, count_cons, ← newlines, ← ih (off + 1)]
    split <;> simp_all

theorem mem_startsFrom {off o : Nat} (h : o ∈ startsFrom off s) : off < o ∧ o ≤ off + s.length := by
  induction s generalizing off with
  | nil => cases h
  | cons b s ih =>
    rw [length_cons]
    rw [startsFrom] at h
    split at h
    · rcases mem_cons.mp h with rfl | h
      · omega
      · have := ih h
        omega
    · have := ih h
      omega

/-- A line ends in front of the next one, or with the text. -/
theorem stop_startsFrom (off : Nat) (s : Bytes) :
    ((startsFrom off s).head?.map (· - 1)).getD (off + s.length) =
      off + (s.takeWhile (· != 10)).length := by
  induction s generalizing off with
  | nil => rfl
  | cons b s ih =>
    by_cases hb : b = 10
    · simp [startsFrom, hb]
    · rw [startsFrom, if_neg hb, takeWhile_cons_of_pos (by simpa using hb), length_cons,
        length_cons, ← Nat.add_assoc, Nat.add_right_comm, ih, Nat.add_right_comm, Nat.add_assoc]

/-- The index of a text, cut at an offset: what begins in front of it or there, and what begins
behind it. -/
theorem starts_append (name s t : Bytes) :
    (starts ⟨name, s ++ t⟩).toList = 0 :: startsFrom 0 s ++ startsFrom s.length t := by
  simp [starts, startsFrom_append]

theorem size_starts (source : SourceText) : source.starts.size = newlines source.text + 1 := by
  simp [starts, length_startsFrom]

/-- Bisection finds the number from which on a property holds. -/
theorem search_eq {p : Nat → Bool} {k fuel lo hi : Nat} (hfuel : hi ≤ lo + fuel) (hlo : lo ≤ k)
    (hhi : k ≤ hi) (hp : ∀ i < hi, p i = decide (k ≤ i)) : search p fuel lo hi = k := by
  induction fuel generalizing lo hi with
  | zero =>
    rw [search]
    omega
  | succ fuel ih =>
    simp only [search]
    split
    · rw [hp _ (by omega)]
      by_cases hk : k ≤ (lo + hi) / 2
      · simp only [hk, decide_true, if_true]
        exact ih (by omega) hlo hk fun i hi => hp i (by omega)
      · simp only [hk, decide_false]
        exact ih (by omega) (by omega) hhi hp
    · omega

/-- A line begins behind an offset if more line feeds come before the line than before the
offset. -/
theorem lt_start_iff (name s t : Bytes) {i : Nat} (hi : i < (starts ⟨name, s ++ t⟩).size) :
    s.length < (starts ⟨name, s ++ t⟩).getD i 0 ↔ newlines s + 1 ≤ i := by
  have hlength : (0 :: startsFrom 0 s).length = newlines s + 1 := by
    rw [length_cons, length_startsFrom]
  rw [← Array.length_toList, starts_append] at hi
  rw [Array.getD_eq_getD_getElem?, ← Array.getElem?_toList, starts_append,
    List.getElem?_eq_getElem hi, Option.getD_some, List.getElem_append, ← hlength]
  split
  · rename_i hlt
    refine iff_of_false (Nat.not_lt.mpr ?_) (Nat.not_le.mpr hlt)
    rcases mem_cons.mp (getElem_mem hlt) with h | h
    · rw [h]
      exact Nat.zero_le _
    · exact Nat.le_trans (mem_startsFrom h).2 (Nat.le_of_eq (Nat.zero_add _))
  · rename_i hge
    exact iff_of_true (mem_startsFrom (getElem_mem _)).1 (Nat.le_of_not_lt hge)

variable (source : SourceText)

theorem length_take_clamp (off : Int) :
    (source.text.take (source.clamp off)).length = source.clamp off :=
  length_take_of_le (Nat.min_le_right _ _)

/-- The bisection counts the line feeds in front of an offset. -/
theorem lineOf_eq (off : Int) :
    source.lineOf off = newlines (source.text.take (source.clamp off)) := by
  have hle : newlines (source.text.take (source.clamp off)) ≤ newlines source.text :=
    (take_sublist _ _).count_le _
  have hsize := source.size_starts
  refine Nat.sub_eq_of_eq_add (search_eq (by omega) (Nat.zero_le _) (by omega) fun i hi => ?_)
  have hiff := @lt_start_iff source.name (source.text.take (source.clamp off))
    (source.text.drop (source.clamp off)) i
  rw [take_append_drop, length_take_clamp] at hiff
  exact decide_eq_decide.mpr (hiff hi)

/-- Where a line begins, and where the next one does, for the lines behind whole lines. -/
theorem getElem?_starts (name after : Bytes)
    (habove : above = [] ∨ ∃ lines, above = lines ++ [10]) :
    (starts ⟨name, above ++ after⟩)[newlines above]? = some above.length ∧
      (starts ⟨name, above ++ after⟩)[newlines above + 1]? =
        (startsFrom above.length after).head? := by
  have hlength : (0 :: startsFrom 0 above).length = newlines above + 1 := by
    rw [length_cons, length_startsFrom]
  rw [← Array.getElem?_toList, ← Array.getElem?_toList, starts_append]
  constructor
  · rw [List.getElem?_append_left (by omega)]
    rcases habove with rfl | ⟨lines, rfl⟩
    · rfl
    · rw [startsFrom_append, newlines, count_append, count_singleton_self, List.getElem?_cons_succ,
        ← newlines, ← length_startsFrom 0 lines]
      simp [startsFrom]
  · rw [List.getElem?_append_right (by omega), hlength, Nat.sub_self, head?_eq_getElem?]

/-- What an offset has on its left and on its right: whole lines, the text of its line up to it, and
the rest. -/
theorem exists_cut (off : Int) : ∃ above last rest, source.text = above ++ (last ++ rest) ∧
    (above = [] ∨ ∃ lines, above = lines ++ [10]) ∧ 10 ∉ last ∧
    source.clamp off = above.length + last.length ∧ source.lineOf off = newlines above := by
  obtain ⟨above, htake, habove⟩ := exists_above (source.text.take (source.clamp off))
  have hlast := not_mem_lastLine (source.text.take (source.clamp off))
  generalize lastLine (source.text.take (source.clamp off)) = last at htake hlast
  refine ⟨above, last, source.text.drop (source.clamp off), ?_, habove, hlast, ?_, ?_⟩
  · rw [← append_assoc, ← htake, take_append_drop]
  · rw [← length_append, ← htake, length_take_clamp]
  · rw [lineOf_eq, htake, newlines, count_append, count_eq_zero.mpr hlast]
    rfl

/-- A line begins behind the lines above it. -/
theorem lineStart_eq (name after : Bytes) (habove : above = [] ∨ ∃ lines, above = lines ++ [10]) :
    lineStart ⟨name, above ++ after⟩ (newlines above) = above.length := by
  rw [lineStart, Array.getD_eq_getD_getElem?, (getElem?_starts name after habove).1,
    Option.getD_some]

/-- A line ends in front of its line break. -/
theorem line_eq (name after : Bytes) (habove : above = [] ∨ ∃ lines, above = lines ++ [10]) :
    line ⟨name, above ++ after⟩ (newlines above + 1 : Nat) =
      dropEnd (after.takeWhile (· != 10)) "\r" := by
  obtain ⟨hstart, hnext⟩ := getElem?_starts name after habove
  have hbound : newlines above < (starts ⟨name, above ++ after⟩).size :=
    (Array.getElem?_eq_some_iff.mp hstart).1
  simp only [line, Int.toNat_natCast, hnext, Nat.add_sub_cancel, lineStart_eq name after habove,
    length_append, stop_startsFrom]
  rw [if_neg (by simp; omega), slice, drop_left, Nat.add_sub_cancel_left,
    ← List.prefix_iff_eq_take.mp (List.takeWhile_prefix _)]

end SourceText

/-! ## The walk over a text -/

namespace EditorPosition

variable {off line start : Nat}

theorem countLines_of_not_mem (h : 10 ∉ s) : countLines off line start s = (line, start) := by
  induction s generalizing off with
  | nil => rfl
  | cons b s ih =>
    rw [mem_cons, not_or] at h
    rw [countLines, if_neg (Ne.symm h.1), ih h.2]

theorem countLines_append (s t : Bytes) : countLines off line start (s ++ t) =
    countLines (off + s.length) (line + newlines s) (countLines off line start s).2 t := by
  induction s generalizing off line start with
  | nil => rfl
  | cons b s ih =>
    rw [cons_append, countLines, countLines, newlines, count_cons, ← newlines, length_cons]
    by_cases hb : b = 10
    · simp only [hb, beq_self_eq_true, if_true, ih]
      congr 1 <;> omega
    · simp only [hb, beq_false_of_ne hb, if_false, ih]
      congr 1
      omega

/-- The walk over a text counts its line feeds and stops with the beginning of its last line. -/
theorem countLines_eq (habove : above = [] ∨ ∃ lines, above = lines ++ [10]) (h : 10 ∉ s) :
    countLines 0 0 0 (above ++ s) = (newlines above, above.length) := by
  rw [countLines_append, countLines_of_not_mem h, Nat.zero_add]
  rcases habove with rfl | ⟨lines, rfl⟩
  · rfl
  · rw [countLines_append]
    simp [countLines]

/-- A position counts line feeds, and units behind the last of them. -/
theorem ofOffset_eq (content : Bytes) (off : Int) :
    ofOffset content off =
      ⟨newlines (content.take (min off.toNat content.length)),
        (Glyph.decode (lastLine (content.take (min off.toNat content.length)))).foldr
          (fun g units => g.units + units) 0⟩ := by
  unfold ofOffset
  have hlength : (content.take (min off.toNat content.length)).length =
      min off.toNat content.length :=
    length_take_of_le (Nat.min_le_right _ _)
  generalize min off.toNat content.length = k at hlength
  obtain ⟨above, htake, habove⟩ := exists_above (content.take k)
  have hlast := not_mem_lastLine (content.take k)
  generalize lastLine (content.take k) = last at htake hlast
  have hslice : content.slice above.length k = last := by
    rw [slice, ← drop_take, htake, drop_left]
  simp only [htake, countLines_eq habove hlast, hslice, newlines, count_append,
    count_eq_zero.mpr hlast, Nat.add_zero]

end EditorPosition

end LuaLint
