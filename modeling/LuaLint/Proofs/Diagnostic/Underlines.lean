import LuaLint.Diagnostic.Render
import LuaLint.Proofs.Lexing.Lines

/-!
# Underlines

A snippet shows the line on which a label begins, with four columns for each tab, and a row of marks
below it. The marks begin in the column of the first labelled character, wherever the label lies:
what is not on the line is cut off, and at least one mark is left.

There is one mark for each labelled character, also for a tab, so that a text with tabs gets too few
marks.

Main statements: `Label.exists_parts`, `Diagnostic.snippet_marks`.
-/

namespace LuaLint

open List Glyph Bytes EditorPosition

/-! ## Columns -/

theorem count_tab_chars (s : Bytes) : s.chars.count '\t' = s.count 9 := by
  induction s using decode_induction with
  | nil => rfl
  | glyph g s hdecode ih =>
    have hg : g.bytes.count 9 = if g.char = '\t' then 1 else 0 := by
      cases g with
      | scalar c =>
        split
        · rename_i hc
          rw [show c = '\t' from hc]
          rfl
        · rename_i hc
          refine count_eq_zero.mpr fun hmem => hc ?_
          exact Char.toNat_inj.mp ((mem_bytes_iff (by decide)).mp hmem)
      | stray b =>
        -- A tab is a character of its own, so it is never a stray byte.
        refine count_eq_zero.mpr fun hmem => ?_
        rw [bytes, ← mem_singleton.mp hmem, singleton_append,
          decode_cons_of_lt (by decide)] at hdecode
        cases (cons.inj hdecode).1
    rw [chars, hdecode, map_cons, count_cons, ← chars, ih, count_append, hg, Nat.add_comm]
    simp

theorem displayWidth_eq (s : Bytes) : displayWidth s = charCount s + 3 * s.count 9 := by
  rw [← count_tab_chars, charCount, ← length_map char, ← chars, displayWidth]
  induction s.chars with
  | nil => rfl
  | cons c cs ih =>
    rw [foldr_cons, ih, length_cons, count_cons]
    split <;> omega

theorem displayLine_of_notMem {s : Bytes} (h : 9 ∉ s) : displayLine s = s := by
  induction s with
  | nil => rfl
  | cons b s ih =>
    rw [mem_cons, not_or] at h
    rw [displayLine, replaceByte, flatMap_cons, if_neg (Ne.symm h.1)]
    exact congrArg (b :: ·) (ih h.2)

/-- The number of columns of a text is the number of characters that are printed for it. -/
theorem charCount_displayLine (s : Bytes) : charCount (displayLine s) = displayWidth s := by
  rw [displayWidth_eq]
  -- Induction on the number of tabs: a text can be cut at a tab without cutting a character.
  induction hn : s.count 9 generalizing s with
  | zero => rw [displayLine_of_notMem (count_eq_zero.mp hn)]; rfl
  | succ n ih =>
    obtain ⟨front, back, rfl, hfront⟩ :=
      eq_append_cons_of_mem (count_pos_iff.mp (Nat.lt_of_lt_of_eq n.succ_pos hn.symm))
    have hback : back.count 9 = n := by
      simpa [count_eq_zero.mpr hfront] using hn
    have hshown : displayLine (front ++ 9 :: back) =
        front ++ 32 :: 32 :: 32 :: 32 :: displayLine back := by
      refine flatMap_append.trans ?_
      exact congrArg (· ++ displayLine (9 :: back)) (displayLine_of_notMem hfront)
    have hih := ih back hback
    simp only [charCount] at hih ⊢
    simp only [hshown, decode_append front (t := 32 :: _) (by simp),
      decode_append front (t := 9 :: _) (by simp), @decode_cons_of_lt 32 (by decide),
      @decode_cons_of_lt 9 (by decide), length_append, length_cons, hih]
    omega

/-! ## The parts of a line -/

theorem decode_parts {front mid back : Bytes}
    (h : decode (front ++ mid ++ back) = decode front ++ decode (mid ++ back))
    (h' : decode (front ++ mid ++ back) = decode (front ++ mid) ++ decode back) :
    decode (front ++ mid ++ back) = decode front ++ decode mid ++ decode back := by
  rcases prefix_or_prefix_of_prefix (h ▸ prefix_append _ _) (h' ▸ prefix_append _ _) with
    ⟨gs, hgs⟩ | ⟨gs, hgs⟩
  · rw [h', ← hgs, (decode_split hgs.symm (flatMap_bytes_decode front)).2]
  · have hbytes := congrArg (length ∘ flatMap bytes) hgs
    simp only [Function.comp, flatMap_append, flatMap_bytes_decode, length_append] at hbytes
    obtain rfl : mid = [] := length_eq_zero_iff.mp (by omega)
    simpa using h

/-- A cut of a text is one of a line of it as well, where it does not lie outside of the line. -/
theorem decode_line {above line rest : Bytes} (habove : ∀ b ∈ above.getLast?, b.toNat < 128)
    (hrest : ∀ b ∈ rest.head?, b.toNat < 128) {off : Int}
    (h : IsCut (above ++ (line ++ rest)) (min off.toNat (above ++ (line ++ rest)).length)) {k : Nat}
    (hk : k = min (off - above.length).toNat line.length) :
    decode line = decode (line.take k) ++ decode (line.drop k) := by
  by_cases hin : above.length ≤ off ∧ off ≤ above.length + line.length
  · have hcut := h.decode_eq.2
    have hoff : min off.toNat (above ++ (line ++ rest)).length = above.length + k := by
      simp only [length_append]
      omega
    have hle : k ≤ line.length := by omega
    rw [hoff, take_length_add_append, drop_length_add_append, take_append_of_le_length hle,
      drop_append_of_le_length hle, decode_append_of_last habove, decode_append_of_last habove,
      decode_append _ hrest, decode_append _ hrest, append_assoc,
      ← append_assoc (decode (line.take k))] at hcut
    exact append_cancel_right (append_cancel_left hcut)
  -- An offset outside of the line is moved to one of its ends.
  · obtain rfl | rfl : k = 0 ∨ k = line.length := by omega
    · rfl
    · rw [take_length, drop_length, decode_nil, append_nil]

namespace SourceText

variable (source : SourceText)

/-- The line of an offset stands in the text where it begins, which is not behind the offset, and an
ASCII character comes before and after it. -/
theorem exists_line (off : Int) : source.lineOf off < source.starts.size ∧ ∃ above rest,
    source.text = above ++ (source.line (source.lineOf off + 1) ++ rest) ∧
    above.length = source.lineStart (source.lineOf off) ∧ above.length ≤ source.clamp off ∧
    (∀ b ∈ above.getLast?, b.toNat < 128) ∧ ∀ b ∈ rest.head?, b.toNat < 128 := by
  obtain ⟨above, last, rest, htext, habove, -, hclamp, hline⟩ := source.exists_cut off
  obtain ⟨name, text⟩ := source
  subst htext
  have hle := Nat.le_of_add_right_le (Nat.le_of_eq hclamp.symm)
  generalize last ++ rest = after at hline hle
  have hstart := lineStart_eq name after habove
  have hshown := line_eq name after habove
  rw [← hline] at hstart hshown
  refine ⟨?_, ?_⟩
  · rw [size_starts, hline, newlines, newlines, count_append]
    omega
  -- What follows the line is a line feed or the end.
  have hfeed : ∀ b ∈ (after.dropWhile (· != 10)).head?, b.toNat < 128 := by
    intro b hb
    have hnot := head?_dropWhile_not (· != (10 : UInt8)) after
    rw [Option.mem_def.mp hb] at hnot
    rw [(by simpa using hnot : b = 10)]
    decide
  have hlast : ∀ b ∈ above.getLast?, b.toNat < 128 := by
    rcases habove with rfl | ⟨lines, rfl⟩ <;> simp
  rw [← Int.natCast_add_one, hshown, dropEnd]
  split
  · rename_i hcr
    -- A carriage return at the end is not shown, and so begins the rest.
    obtain ⟨front, hfront⟩ := isSuffixOf_iff_suffix.mp hcr
    refine ⟨above, ofString "\r" ++ after.dropWhile (· != 10), ?_, hstart.symm, hle, hlast, ?_⟩
    · rw [← hfront, length_append, Nat.add_sub_cancel, take_left, ← append_assoc front, hfront,
        takeWhile_append_dropWhile]
    · intro b hb
      cases hb
      decide
  · exact ⟨above, _, by rw [takeWhile_append_dropWhile], hstart.symm, hle, hlast, hfeed⟩

end SourceText

/-- The line on which a label begins, cut where the label begins and ends on it. -/
structure Label.Parts (source : SourceText) (label : Label) (before labelled after : Bytes) :
    Prop where
  bounds : source.lineOf label.start < source.starts.size ∧
    source.lineStart (source.lineOf label.start) ≤ source.clamp label.start ∧
    source.clamp label.start ≤ source.text.length
  line : source.line (source.lineOf label.start + 1) = before ++ labelled ++ after
  place : before ++ labelled ++ after <+:
    source.text.drop (source.lineStart (source.lineOf label.start))
  offsets : ∀ i < (before ++ labelled ++ after).length,
    let off : Int := source.lineStart (source.lineOf label.start) + i
    (i < before.length ↔ off < label.start) ∧
      (before.length ≤ i ∧ i < (before ++ labelled).length ↔ label.start ≤ off ∧ off < label.stop)

/-- A label cuts its line in three, and the underline measures the first two parts. -/
theorem Label.exists_parts (source : SourceText) (label : Label) :
    ∃ before labelled after, label.Parts source before labelled after ∧
      Underline.of (before ++ labelled ++ after) (source.lineStart (source.lineOf label.start))
        label.start label.stop = ⟨charCount (displayLine before), max 1 (charCount labelled)⟩ ∧
      (IsCut source.text (source.clamp label.start) → IsCut source.text (source.clamp label.stop) →
        decode (before ++ labelled ++ after) =
          decode before ++ decode labelled ++ decode after) := by
  obtain ⟨hlines, above, rest, htext, hlen, hclamp, habove, hrest⟩ := source.exists_line label.start
  generalize hline : source.line (source.lineOf label.start + 1) = line at htext
  obtain ⟨first, hf⟩ : ∃ k, k = min (label.start - above.length).toNat line.length := ⟨_, rfl⟩
  obtain ⟨stop, hs⟩ : ∃ k, k = min (label.stop - above.length).toNat line.length := ⟨_, rfl⟩
  -- A label that stops before it starts labels nothing.
  obtain ⟨past, hp⟩ : ∃ k, k = max first stop := ⟨_, rfl⟩
  have hle : first ≤ past := by omega
  have hback : line.slice first past ++ line.drop past = line.drop first := by
    rw [slice, ← Nat.add_sub_of_le hle, ← drop_drop, Nat.add_sub_cancel_left, take_append_drop]
  have hfront : line.take first ++ line.slice first past = line.take past := by
    rw [slice, ← take_add, Nat.add_sub_of_le hle]
  have hwhole : line.take first ++ line.slice first past ++ line.drop past = line := by
    rw [hfront, take_append_drop]
  refine ⟨line.take first, line.slice first past, line.drop past,
    ⟨⟨hlines, hlen ▸ hclamp, Nat.min_le_right _ _⟩, ?_, ?_, ?_⟩, ?_, ?_⟩
  · rw [hwhole, hline]
  · rw [hwhole, htext, ← hlen, drop_left]
    exact prefix_append _ _
  · rw [hwhole, hfront, ← hlen]
    intro i hi
    simp only [length_take]
    omega
  · rw [hwhole, charCount_displayLine, Underline.of, ← hlen, ← hf, ← hs, ← hp]
  · intro hcut hcut'
    rw [SourceText.clamp, htext] at hcut hcut'
    refine decode_parts ?_ ?_
    · rw [hwhole, hback]
      exact decode_line habove hrest hcut hf
    · rw [hwhole, hfront, hp]
      rcases Nat.le_total first stop with h | h
      · rw [Nat.max_eq_right h]
        exact decode_line habove hrest hcut' hs
      · rw [Nat.max_eq_left h]
        exact decode_line habove hrest hcut hf

/-! ## The rows of a snippet -/

theorem length_ofNat (n : Nat) : (ofNat n).length = n.repr.length := by
  have hdigits : ∀ c ∈ n.repr.toList, (ofChar c).length = 1 := by
    intro c hc
    rw [Nat.repr_eq_ofList_toDigits, String.toList_ofList] at hc
    have hdigit :=
      Char.isDigit_iff_toNat.mp (Nat.isDigit_of_mem_toDigits (by decide) (by decide) hc)
    exact congrArg length (@bytes_of_code_lt (.scalar c) (Nat.lt_of_le_of_lt hdigit.2 (by decide)))
  rw [ofNat, ofString_eq, ← String.length_toList, length_flatMap]
  exact (congrArg sum (map_congr_left hdigits)).trans (by simp [map_const'])

theorem length_ofNat_le {m n : Nat} (h : m ≤ n) : (ofNat m).length ≤ (ofNat n).length := by
  rw [length_ofNat, length_ofNat, Nat.length_repr_le_iff Nat.length_repr_pos]
  exact Nat.lt_of_le_of_lt h ((Nat.length_repr_le_iff Nat.length_repr_pos).mp (Nat.le_refl _))

/-- A text that ends with a whole row. -/
def Rows (s : Bytes) : Prop := s = [] ∨ ∃ t, s = t ++ ofString "\n"

theorem Rows.append {s t : Bytes} (hs : Rows s) (ht : Rows t) : Rows (s ++ t) := by
  rcases ht with rfl | ⟨t, rfl⟩
  · rwa [append_nil]
  · exact .inr ⟨s ++ t, (append_assoc _ _ _).symm⟩

namespace Diagnostic

variable (source : SourceText) (gutter : Nat)

/-- The number of a line, moved to the right. -/
def number (line : Nat) : Bytes :=
  copies (gutter - (ofNat (line + 1)).length) " " ++ ofNat (line + 1)

/-- The row that shows a line. -/
def lineRow (line : Nat) : Bytes :=
  number gutter line ++ " | " ++ displayLine (source.line (line + 1)) ++ "\n"

/-- The row below it as far as the marks go. -/
def markRow (label : Label) (primary : Bool) : Bytes :=
  let line := source.lineOf label.start
  let marks := Underline.of (source.line (line + 1)) (source.lineStart line) label.start label.stop
  copies gutter " " ++ " | " ++ copies marks.indent " " ++
    copies marks.width (if primary then "^" else "-")

theorem labelText_plain (severity : Severity) (label : Label) (primary showLine : Bool) :
    ∃ message, labelText .plain source gutter severity label primary showLine =
      (if showLine then lineRow source gutter (source.lineOf label.start) else []) ++
        markRow source gutter label primary ++ (message ++ ofString "\n") := by
  have hcolor : Palette.plain.ofSeverity severity = [] := by cases severity <;> rfl
  have hbar : ∀ s, ofString " |" ++ (ofString " " ++ s) = ofString " | " ++ s := fun _ => rfl
  have hbar' : ∀ s, ofString " " ++ (ofString "|" ++ (ofString " " ++ s)) = ofString " | " ++ s :=
    fun _ => rfl
  refine ⟨if label.message.isEmpty then [] else ofString " " ++ label.message, ?_⟩
  have hplain : Palette.plain.blue = [] ∧ Palette.plain.reset = [] := ⟨rfl, rfl⟩
  cases primary <;> cases showLine <;>
    simp [labelText, lineRow, number, markRow, hcolor, hbar, hbar', hplain]

variable {source gutter} {label : Label} {primary : Bool} {ls : List (Label × Bool)}

theorem labelsText_cons (severity : Severity) (label : Label) (primary : Bool)
    (ls : List (Label × Bool)) (last : Nat) : ∃ dots shown message, Rows dots ∧
      (shown = lineRow source gutter (source.lineOf label.start) ∨
        shown = [] ∧ source.lineOf label.start + 1 = last) ∧
      labelsText .plain source gutter severity last ((label, primary) :: ls) =
        dots ++ (shown ++ markRow source gutter label primary ++ (message ++ ofString "\n")) ++
          labelsText .plain source gutter severity (source.lineOf label.start + 1) ls := by
  obtain ⟨message, htext⟩ := labelText_plain source gutter severity label primary
    (source.lineOf label.start + 1 != last)
  rw [labelsText, htext]
  refine ⟨_, _, message, ?_, ?_, rfl⟩
  · split
    · exact .inr ⟨_, rfl⟩
    · exact .inl rfl
  · split
    · exact .inl rfl
    · rename_i hlast
      exact .inr ⟨rfl, by simpa using hlast⟩

theorem labelsText_rows (severity : Severity) (h : (label, primary) ∈ ls) (last : Nat) :
    ∃ above shown between below, Rows above ∧ Rows between ∧
      labelsText .plain source gutter severity last ls =
        above ++ shown ++ between ++ markRow source gutter label primary ++ below ∧
      (shown = lineRow source gutter (source.lineOf label.start) ∨
        shown = [] ∧ source.lineOf label.start + 1 = last) := by
  induction ls generalizing last with
  | nil => cases h
  | cons l ls ih =>
    obtain ⟨label', primary'⟩ := l
    obtain ⟨dots, shown, message, hrows, hline, htext⟩ :=
      @labelsText_cons source gutter severity label' primary' ls last
    rw [htext]
    rcases mem_cons.mp h with heq | hmem
    · obtain ⟨rfl, rfl⟩ := Prod.mk.inj heq
      exact ⟨dots, shown, [], _, hrows, .inl rfl, by simp; rfl, hline⟩
    · obtain ⟨above, shown', between, below, habove, hbetween, hls, hcases⟩ :=
        ih hmem (source.lineOf label'.start + 1)
      have hrow : Rows (markRow source gutter label' primary' ++ (message ++ ofString "\n")) :=
        .inr ⟨_, (append_assoc _ _ _).symm⟩
      rw [hls]
      -- If the line of the label is not shown again, it is the one that has been shown just here.
      rcases hcases with rfl | ⟨rfl, heq⟩
      · have hshown' : Rows shown := hline.elim (fun h => .inr ⟨_, h⟩) fun h => .inl h.1
        exact ⟨_, _, between, below, ((hrows.append hshown').append hrow).append habove, hbetween,
          by simp, .inl rfl⟩
      · rw [Nat.add_right_cancel heq] at *
        exact ⟨dots, shown, _, below, hrows, (hrow.append habove).append hbetween, by simp, hline⟩

theorem length_number {d : Diagnostic} (h : label ∈ d.primary :: d.secondary) :
    (number (d.gutter source) (source.lineOf label.start)).length = d.gutter source := by
  have hmem := mem_map_of_mem (f := fun l : Label => source.lineOf l.start + 1) h
  have hle : (ofNat (source.lineOf label.start + 1)).length ≤ d.gutter source := by
    refine length_ofNat_le ?_
    rw [foldl_max]
    exact Nat.le_trans (le_max?_getD_of_mem hmem) (Nat.le_max_right _ _)
  have hone : (ofString " ").length = 1 := rfl
  simp [number, copies, hone, Nat.sub_add_cancel hle]

theorem exists_header (source : SourceText) (d : Diagnostic) : ∃ header tail, Rows header ∧
    snippet .plain source d =
      header ++ labelsText .plain source (d.gutter source) d.severity 0 d.labels ++ tail := by
  apply Exists.intro
  apply Exists.intro
  apply And.intro
  rotate_left
  · unfold snippet
    simp only [append_assoc (_ ++ labelsText _ _ _ _ _ _)]
    rfl
  · exact .inr ⟨_, rfl⟩

/-- In an uncoloured snippet every label has a row of marks below the line on which it begins.
Behind the gutter, which is as wide in both rows, the marks begin where the labelled text begins. -/
theorem snippet_marks (source : SourceText) (d : Diagnostic) {label : Label} {primary : Bool}
    (h : (label, primary) ∈ (d.primary, true) :: d.secondary.map (·, false)) :
    ∃ before labelled after, label.Parts source before labelled after ∧
      (IsCut source.text (source.clamp label.start) → IsCut source.text (source.clamp label.stop) →
        decode (before ++ labelled ++ after) = decode before ++ decode labelled ++ decode after) ∧
      charCount (displayLine labelled) = charCount labelled + 3 * labelled.count 9 ∧
      0 < d.gutter source ∧
      (number (d.gutter source) (source.lineOf label.start)).length = d.gutter source ∧
      ∃ above between below, Rows above ∧ Rows between ∧ snippet .plain source d = above ++
        (number (d.gutter source) (source.lineOf label.start) ++ " | " ++
          displayLine (before ++ labelled ++ after) ++ "\n") ++ between ++
        (copies (d.gutter source) " " ++ " | " ++ copies (charCount (displayLine before)) " " ++
          copies (max 1 (charCount labelled)) (if primary then "^" else "-")) ++ below := by
  obtain ⟨before, labelled, after, hparts, hmarks, hcut⟩ := label.exists_parts source
  obtain ⟨header, tail, hheader, htail⟩ := exists_header source d
  obtain ⟨above, shown, between, below, habove, hbetween, htext, hshown⟩ :=
    @labelsText_rows source (d.gutter source) label primary d.labels d.severity
      (mem_mergeSort.mpr h) 0
  -- At first no line has been shown, so that of the label is among the rows.
  obtain rfl := hshown.resolve_right fun hnone => by simp at hnone
  refine ⟨before, labelled, after, hparts, hcut, ?_, ?_, length_number ?_, header ++ above, between,
    below ++ tail, hheader.append habove, hbetween, ?_⟩
  · rw [charCount_displayLine, displayWidth_eq]
  · exact Nat.lt_of_lt_of_eq Nat.length_repr_pos (length_ofNat _).symm
  · simpa using mem_map_of_mem (f := Prod.fst) h
  · rw [htail, htext, lineRow, markRow, hparts.line, hmarks]
    simp only [append_assoc]

/-- A label behind a tab, on a character of two bytes. -/
theorem snippet_marks_tab :
    let source : SourceText := ⟨"a.lua", "\té = 1"⟩
    let label : Label := ⟨1, 3, []⟩
    IsCut source.text (source.clamp 1) ∧ IsCut source.text (source.clamp 3) ∧
      ∃ before labelled after, label.Parts source before labelled after ∧
        decode (before ++ labelled ++ after) = decode before ++ decode labelled ++
          decode after := by
  intro source label
  have hstart : IsCut source.text (source.clamp 1) := ⟨[.scalar '\t'], _, rfl, rfl⟩
  have hstop : IsCut source.text (source.clamp 3) := ⟨[.scalar '\t', .scalar 'é'], _, rfl, rfl⟩
  obtain ⟨before, labelled, after, hparts, hcut, -⟩ :=
    snippet_marks source ⟨⟨"m", label, [], []⟩, "c", .warning⟩ mem_cons_self
  exact ⟨hstart, hstop, before, labelled, after, hparts, hcut hstart hstop⟩

/-- A tab is shown as four columns and gets one mark. -/
theorem labelsText_tab :
    labelsText .plain ⟨"test.lua", "\tx"⟩ 1 .warning 0 [(⟨0, 2, []⟩, true)] =
        "1 |     x\n  | ^^\n" ∧ charCount (displayLine "\tx") = 5 := by
  decide +kernel

end Diagnostic

end LuaLint
