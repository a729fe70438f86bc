import LuaLint.Proofs.Parsing.Chunk
import LuaLint.Proofs.Text.LineIndex

/-!
# Positions and offsets

An offset is found again from its position in an editor, unless it lies inside of a character. The
line of the position is found by counting line feeds, and the place in the line by adding up the
units of its characters.

Main statements: `EditorPosition.lineOffset?_newlines`, `EditorPosition.bytesFor_units`,
`EditorPosition.offset_inverse`.
-/

namespace LuaLint

open List Glyph Bytes

variable {s before : Bytes} {b : UInt8} {gs : List Glyph} {line : Nat} {p : EditorPosition}

namespace Glyph

theorem bytes_of_isNewline {g : Glyph} (h : g.isNewline = true) : g.bytes = [10] := by
  have hcode : g.code = 10 := beq_iff_eq.mp h
  rw [bytes_of_code_lt (by omega), hcode]
  rfl

end Glyph

namespace EditorPosition

/-! ## Lines -/

theorem lineOffset?_cons (hb : b ≠ 10) (line : Nat) (s : Bytes) :
    lineOffset? (line + 1) (b :: s) = (lineOffset? (line + 1) s).map (· + 1) := by
  have hdrop : (b :: s).dropWhile (· != 10) = s.dropWhile (· != 10) := by simp [hb]
  have htake : (b :: s).takeWhile (· != 10) = b :: s.takeWhile (· != 10) := by simp [hb]
  simp only [lineOffset?, hdrop, htake, length_cons]
  cases s.dropWhile (· != 10) with
  | nil => rfl
  | cons c rest => simp only [Option.map_map, Function.comp_def, Nat.add_assoc]

theorem lineOffset?_feed (line : Nat) (s : Bytes) :
    lineOffset? (line + 1) (10 :: s) = (lineOffset? line s).map (· + 1) := by
  simp [lineOffset?]

/-- A line begins behind as many line feeds as its number. -/
theorem lineOffset?_newlines (before after : Bytes) :
    lineOffset? (newlines before) (before ++ after) =
      some (before.length - (lastLine before).length) := by
  induction before with
  | nil => rfl
  | cons b s ih =>
    have hle : (lastLine s).length ≤ s.length := (lastLine_suffix s).length_le
    by_cases hb : b = 10
    · subst hb
      have hcount : newlines (10 :: s) = newlines s + 1 := by simp [newlines]
      rw [hcount, lastLine_cons_of_mem (by simp), cons_append, lineOffset?_feed, ih,
        Option.map_some, length_cons]
      congr 1
      omega
    · have hcount : newlines (b :: s) = newlines s := by simp [newlines, hb]
      by_cases hs : 10 ∈ s
      · obtain ⟨n, hn⟩ : ∃ n, newlines s = n + 1 :=
          Nat.exists_eq_add_one.mpr (count_pos_iff.mpr hs)
        rw [hcount, hn, cons_append, lineOffset?_cons hb, ← hn, ih,
          lastLine_cons_of_mem (mem_cons_of_mem _ hs), Option.map_some, length_cons]
        congr 1
        omega
      · have hnone : newlines s = 0 := count_eq_zero.mpr hs
        have hline : lastLine (b :: s) = b :: s :=
          lastLine_of_not_mem (by simpa [hs] using fun h => hb h.symm)
        rw [hcount, hnone, lineOffset?, hline, Nat.sub_self]

/-! ## Characters -/

theorem units_pos (g : Glyph) : 0 < g.units := by
  unfold units
  split <;> decide

/-- Units are turned back into the bytes of the same characters. -/
theorem bytesFor_units (h : ∀ g ∈ gs, g.isNewline = false) (rest : List Glyph) :
    bytesFor (gs.foldr (fun g units => g.units + units) 0) (gs ++ rest) =
      (gs.flatMap bytes).length := by
  induction gs with
  | nil => cases rest <;> rfl
  | cons g gs ih =>
    rw [forall_mem_cons] at h
    have hwanted : (g.units + gs.foldr (fun g units => g.units + units) 0 == 0) = false := by
      have hpos := units_pos g
      rw [beq_eq_false_iff_ne]
      omega
    rw [foldr_cons, cons_append, bytesFor, hwanted, h.1, if_neg (by simp),
      Nat.add_sub_cancel_left, ih h.2, flatMap_cons, length_append, size]

theorem isNewline_of_decode (h : 10 ∉ s) : ∀ g ∈ decode s, g.isNewline = false := by
  intro g hg
  rw [Bool.eq_false_iff]
  intro hline
  rw [← flatMap_bytes_decode s] at h
  exact h (mem_flatMap.mpr ⟨g, hg, (mem_bytes_iff (by decide)).mpr (beq_iff_eq.mp hline)⟩)

theorem offset_ofOffset_length {after : Bytes}
    (h : decode (lastLine before ++ after) =
      decode (lastLine before) ++ decode after) :
    offset (before ++ after) (ofOffset (before ++ after) before.length) = before.length := by
  have htake : (before ++ after).take (min (before.length : Int).toNat (before ++ after).length) =
      before := by
    simp
  obtain ⟨lines, hlines⟩ := lastLine_suffix before
  have hstart : before.length - (lastLine before).length = lines.length := by
    rw [← congrArg length hlines, length_append, Nat.add_sub_cancel]
  have hdrop : (before ++ after).drop lines.length = lastLine before ++ after := by
    rw [← hlines, append_assoc, drop_left]
    simp [hlines]
  have hunits := bytesFor_units (isNewline_of_decode (not_mem_lastLine before)) (decode after)
  simp only [offset, ofOffset_eq, htake, lineOffset?_newlines, hstart, hdrop, h]
  rw [hunits, flatMap_bytes_decode, ← length_append, hlines]

/-! ## Boundaries -/

/-- An offset on a line, between two characters or at the end of the line, where the characters are
read from the beginning of the line on. A line begins at the beginning of the text or behind a line
feed. -/
def Boundary (content : Bytes) (line off : Nat) : Prop :=
  ∃ (before after : Bytes) (gs rest : List Glyph), content = before ++ after ∧
    (before = [] ∨ ∃ lines, before = lines ++ [10]) ∧ Bytes.newlines before = line ∧
    Glyph.decode after = gs ++ rest ∧ (∀ g ∈ gs, g.isNewline = false) ∧
    off = before.length + (gs.flatMap Glyph.bytes).length

theorem notMem_flatMap_bytes (h : ∀ g ∈ gs, g.isNewline = false) : 10 ∉ gs.flatMap bytes := by
  intro hmem
  obtain ⟨g, hg, hbyte⟩ := mem_flatMap.mp hmem
  cases (h g hg).symm.trans (beq_iff_eq.mpr ((mem_bytes_iff (by decide)).mp hbyte))

namespace Boundary

variable {content : Bytes} {line off : Nat}

theorem newlines_take (h : Boundary content line off) :
    off ≤ content.length ∧ newlines (content.take off) = line := by
  obtain ⟨before, after, gs, rest, rfl, -, rfl, hdecode, hgs, rfl⟩ := h
  have hafter : after = gs.flatMap bytes ++ rest.flatMap bytes := by
    rw [← flatMap_append, ← hdecode, flatMap_bytes_decode]
  constructor
  · simp [hafter]
  · rw [hafter, ← append_assoc, ← length_append, take_left, newlines,
      count_append, count_eq_zero.mpr (notMem_flatMap_bytes hgs)]
    rfl

theorem offset_ofOffset (h : Boundary content line off) :
    offset content (ofOffset content off) = off := by
  obtain ⟨before, after, gs, rest, rfl, hbefore, -, hdecode, hgs, rfl⟩ := h
  have hafter : after = gs.flatMap bytes ++ rest.flatMap bytes := by
    rw [← flatMap_append, ← hdecode, flatMap_bytes_decode]
  obtain ⟨hfirst, hrest⟩ := decode_split (hafter ▸ hdecode) rfl
  rw [hafter, ← append_assoc, ← length_append]
  refine offset_ofOffset_length ?_
  rw [lastLine_append _ (notMem_flatMap_bytes hgs), lastLine_eq_nil hbefore, nil_append, ← hafter,
    hdecode, hfirst, hrest]

end Boundary

theorem exists_lines (gs : List Glyph) : ∃ lines line : List Glyph, gs = lines ++ line ∧
    (lines.flatMap bytes = [] ∨ ∃ front, lines.flatMap bytes = front ++ [10]) ∧
    ∀ g ∈ line, g.isNewline = false := by
  induction gs using reverseRec with
  | nil => exact ⟨[], [], rfl, .inl rfl, by simp⟩
  | append_singleton gs g ih =>
    cases hg : g.isNewline with
    | true =>
      have hbytes : g.bytes = [10] := bytes_of_isNewline hg
      exact ⟨gs ++ [g], [], by simp, .inr ⟨gs.flatMap bytes, by simp [hbytes]⟩, by simp⟩
    | false =>
      obtain ⟨lines, line, rfl, hlines, hline⟩ := ih
      refine ⟨lines, line ++ [g], by simp, hlines, ?_⟩
      simpa [or_imp, forall_and, hg] using hline

theorem boundary_of_decode {content : Bytes} {rest : List Glyph}
    (h : decode content = gs ++ rest) :
    Boundary content (newlines (gs.flatMap bytes)) (gs.flatMap bytes).length := by
  obtain ⟨lines, line, rfl, hlines, hline⟩ := exists_lines gs
  have hcontent : content = lines.flatMap bytes ++ (line ++ rest).flatMap bytes := by
    rw [← flatMap_append, ← append_assoc, ← h, flatMap_bytes_decode]
  rw [append_assoc, hcontent] at h
  refine ⟨_, _, line, rest, hcontent, hlines, ?_, (decode_split h rfl).2, hline, by simp⟩
  rw [flatMap_append, newlines, newlines, count_append,
    count_eq_zero.mpr (notMem_flatMap_bytes hline), Nat.add_zero]

/-- Both ends of a token are boundaries. -/
theorem boundary_token {source : Bytes} {t : Token} (ht : t ∈ Lexer.tokens source) :
    (∃ line, Boundary source line t.extent.start) ∧ ∃ line, Boundary source line t.extent.stop := by
  obtain ⟨before, own, after, hsource, hmark, hlexeme⟩ := (Lexer.tiles_tokens source).parts ht
  have hpos : t.pos = (before.flatMap bytes).length := by
    rw [Token.pos, hmark, Mark.pos_foldl_after]
    exact Nat.zero_add _
  rw [Token.extent, hpos, hlexeme, ← length_append, ← flatMap_append]
  exact ⟨⟨_, boundary_of_decode (hsource.trans (append_assoc _ _ _))⟩,
    ⟨_, boundary_of_decode hsource⟩⟩

/-! ## Positions -/

variable {content : Bytes}

theorem exists_line (h : line ≤ newlines content) :
    ∃ before after, content = before ++ after ∧ (before = [] ∨ ∃ lines, before = lines ++ [10]) ∧
      newlines before = line := by
  induction content generalizing line with
  | nil => exact ⟨[], [], rfl, .inl rfl, (Nat.le_zero.mp h).symm⟩
  | cons b s ih =>
    cases line with
    | zero => exact ⟨[], b :: s, rfl, .inl rfl, rfl⟩
    | succ line =>
      by_cases hb : b = 10
      · subst hb
        have hrest : line ≤ newlines s := by simpa [newlines] using h
        obtain ⟨before, after, rfl, hbefore, rfl⟩ := ih hrest
        refine ⟨10 :: before, after, rfl, .inr ?_, by simp [newlines]⟩
        rcases hbefore with rfl | ⟨lines, rfl⟩
        · exact ⟨[], rfl⟩
        · exact ⟨10 :: lines, rfl⟩
      · have hrest : line + 1 ≤ newlines s := by simpa [newlines, hb] using h
        obtain ⟨before, after, rfl, hbefore, hline⟩ := ih hrest
        refine ⟨b :: before, after, rfl, .inr ?_, by simpa [newlines, hb] using hline⟩
        rcases hbefore with rfl | ⟨lines, rfl⟩
        · cases hline
        · exact ⟨b :: lines, rfl⟩

theorem lineOffset?_eq_none (h : newlines content < line) :
    lineOffset? line content = none := by
  obtain ⟨line, rfl⟩ := Nat.exists_eq_add_one.mpr (Nat.zero_lt_of_lt h)
  induction content generalizing line with
  | nil => rfl
  | cons b s ih =>
    by_cases hb : b = 10
    · subst hb
      rw [lineOffset?_feed]
      cases line with
      | zero => simp [newlines] at h
      | succ line => rw [ih line (by simpa [newlines] using h)]; rfl
    · rw [lineOffset?_cons hb, ih line (by simpa [newlines, hb] using h)]
      rfl

theorem exists_bytesFor (wanted : Nat) (glyphs : List Glyph) :
    ∃ gs rest, glyphs = gs ++ rest ∧ (∀ g ∈ gs, g.isNewline = false) ∧
      bytesFor wanted glyphs = (gs.flatMap bytes).length := by
  fun_induction bytesFor wanted glyphs with
  | case1 => exact ⟨[], [], rfl, by simp, rfl⟩
  | case2 wanted g rest _ => exact ⟨[], g :: rest, rfl, by simp, rfl⟩
  | case3 wanted g rest hstop ih =>
    obtain ⟨gs, rest', rfl, hgs, hbytes⟩ := ih
    refine ⟨g :: gs, rest', rfl, forall_mem_cons.mpr ⟨?_, hgs⟩, ?_⟩
    · exact Bool.eq_false_iff.mpr fun hline => hstop (by simp [hline])
    · rw [hbytes, flatMap_cons, length_append, size]

theorem bytesFor_mono {m n : Nat} (h : m ≤ n) (glyphs : List Glyph) :
    bytesFor m glyphs ≤ bytesFor n glyphs := by
  induction glyphs generalizing m n with
  | nil => simp [bytesFor]
  | cons g rest ih =>
    cases hline : g.isNewline with
    | true => simp [bytesFor, hline]
    | false =>
      by_cases hm : m = 0
      · simp [bytesFor, hm]
      · have hn : n ≠ 0 := by omega
        have hrest := ih (show m - g.units ≤ n - g.units by omega)
        simpa [bytesFor, hline, hm, hn] using hrest

theorem boundary_offset (h : p.line ≤ newlines content) :
    Boundary content p.line (offset content p) := by
  obtain ⟨before, after, rfl, hbefore, hline⟩ := exists_line h
  have hstart := lineOffset?_newlines before after
  rw [lastLine_eq_nil hbefore, hline] at hstart
  obtain ⟨gs, rest, hglyphs, hgs, hbytes⟩ := exists_bytesFor p.character (decode after)
  refine ⟨before, after, gs, rest, rfl, hbefore, hline, hglyphs, hgs, ?_⟩
  simp [offset, hstart, hbytes]

theorem offset_eq_length (h : newlines content < p.line) :
    offset content p = content.length := by
  rw [offset, lineOffset?_eq_none h]

theorem offset_le_length (p : EditorPosition) : offset content p ≤ content.length := by
  rcases Nat.lt_or_ge (newlines content) p.line with h | h
  · exact Nat.le_of_eq (offset_eq_length h)
  · exact (boundary_offset h).newlines_take.1

theorem offset_mono {q : EditorPosition}
    (h : p.line < q.line ∨ p.line = q.line ∧ p.character ≤ q.character) :
    offset content p ≤ offset content q := by
  rcases h with hlt | ⟨hline, hle⟩
  · rcases Nat.lt_or_ge (newlines content) q.line with hq | hq
    · rw [offset_eq_length hq]
      exact offset_le_length p
    · -- The text up to the later position has more line feeds.
      have hp := (boundary_offset (Nat.le_trans (Nat.le_of_lt hlt) hq)).newlines_take.2
      have hq := (boundary_offset hq).newlines_take.2
      refine Nat.le_of_not_lt fun hoff => Nat.not_le.mpr hlt ?_
      rw [← hp, ← hq]
      exact (take_prefix_take_left (Nat.le_of_lt hoff)).sublist.count_le 10
  · unfold offset
    rw [hline]
    cases lineOffset? q.line content with
    | none => exact Nat.le_refl _
    | some start => exact Nat.add_le_add_left (bytesFor_mono hle _) start

theorem units_le_size (g : Glyph) : g.units ≤ g.size := by
  unfold units
  split
  · rename_i hcode
    cases g with
    | scalar c =>
      have hlarge : 0x10000 ≤ c.toNat := hcode
      show 2 ≤ (ofChar c).length
      rw [ofChar_eq, if_neg (by omega), if_neg (by omega), if_neg (by omega)]
      simp
    | stray b =>
      have hsmall : b.toNat < 256 := b.toNat_lt
      have hlarge : 0x10000 ≤ b.toNat := hcode
      omega
  · exact g.size_pos

theorem ofOffset_le (content : Bytes) (off : Int) : (ofOffset content off).line ≤ content.length ∧
      (ofOffset content off).character ≤ content.length := by
  have hunits (gs : List Glyph) :
      gs.foldr (fun g units => g.units + units) 0 ≤ (gs.flatMap bytes).length := by
    induction gs with
    | nil => exact Nat.le_refl 0
    | cons g gs ih =>
      rw [foldr_cons, flatMap_cons, length_append]
      exact Nat.add_le_add (units_le_size g) ih
  have htake := length_take_le' (min off.toNat content.length) content
  rw [ofOffset_eq]
  constructor
  · exact Nat.le_trans count_le_length htake
  · refine Nat.le_trans (hunits _) ?_
    rw [flatMap_bytes_decode]
    exact Nat.le_trans (lastLine_suffix _).length_le htake

/-- Positions and offsets are inverse to each other. Every position has an offset that is a boundary
of its line, or the end of the text if there is no such line, and the offsets are in the order of
the positions; the boundaries, among them both ends of every token, are found again. -/
theorem offset_inverse {content : Bytes} (h : content.length < Nat.pow 2 32) :
    (∀ off : Int, (ofOffset content off).line < Nat.pow 2 32 ∧
      (ofOffset content off).character < Nat.pow 2 32) ∧
    (∀ line off, Boundary content line off → offset content (ofOffset content off) = off) ∧
    (∀ p : EditorPosition, p.line ≤ Bytes.newlines content →
      Boundary content p.line (offset content p)) ∧
    (∀ p : EditorPosition, Bytes.newlines content < p.line → offset content p = content.length) ∧
    (∀ p q : EditorPosition, p.line < q.line ∨ p.line = q.line ∧ p.character ≤ q.character →
      offset content p ≤ offset content q) ∧
    ∀ chunk, Parser.parse content = .ok chunk → ∀ span ∈ chunk.tokens,
      offset content (ofOffset content span.start) = span.start ∧
        offset content (ofOffset content span.stop) = span.stop := by
  refine ⟨fun off => ?_, fun line off hoff => hoff.offset_ofOffset, fun p => boundary_offset,
    fun p => offset_eq_length, fun p q => offset_mono, fun chunk hchunk span hspan => ?_⟩
  · obtain ⟨hline, hcharacter⟩ := ofOffset_le content off
    exact ⟨Nat.lt_of_le_of_lt hline h, Nat.lt_of_le_of_lt hcharacter h⟩
  · obtain ⟨hread, htokens, -⟩ := Parser.chunk_of_parse hchunk
    rw [htokens] at hspan
    obtain ⟨t, ht, rfl⟩ := List.mem_map.mp hspan
    obtain ⟨⟨_, hstart⟩, ⟨_, hstop⟩⟩ := boundary_token (List.mem_filter.mp ht).1
    rw [Token.extent, ← Token.text_eq_lexeme (hread.reads.isProper t ht)] at hstop
    exact ⟨hstart.offset_ofOffset, hstop.offset_ofOffset⟩

/-- A character outside of the basic plane, one of two bytes, and a byte that begins no
character. -/
theorem offset_inverse_surrogates :
    let content : Bytes := "s = '😀é" ++ ([0xff, 39, 10] : Bytes) ++ "t = s"
    content.length < Nat.pow 2 32 ∧ ofOffset content 13 = ⟨0, 10⟩ ∧ offset content ⟨0, 10⟩ = 13 ∧
      offset content ⟨0, 6⟩ = 9 ∧ offset content ⟨0, 50⟩ = 13 ∧ offset content ⟨2, 0⟩ = 19 ∧
      offset content ⟨1, 0⟩ ≤ offset content ⟨1, 3⟩ := by
  intro content
  have hlength : content.length < Nat.pow 2 32 := by decide
  have hlines : Bytes.newlines content = 1 := by decide
  obtain ⟨-, -, -, hend, hmono, -⟩ := offset_inverse hlength
  exact ⟨hlength, by decide, by decide, by decide, by decide, hend ⟨2, 0⟩ (by rw [hlines]; decide),
    hmono ⟨1, 0⟩ ⟨1, 3⟩ (.inr ⟨rfl, by decide⟩)⟩

end EditorPosition

end LuaLint
