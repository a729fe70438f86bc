import LuaLint.Proofs.Editor.Positions
import LuaLint.Proofs.Text.Names

/-!
# The line of a token

The lexer counts lines and columns as it goes. Messages look the line of an offset up in an index
and editors walk over the text before it. For a token all of them come to the same line, and the
columns are the distance from where that line begins, in bytes for the lexer and in characters for a
message.

Main statements: `Mark.foldl_after_first`, `SourceText.position_behind`, `Lexer.lines_agree`.
-/

namespace LuaLint

open List Glyph EditorPosition Bytes

/-- The place that is reached over the first characters of a text: the number of their bytes, of the
line feeds among these, and of the bytes behind the last line feed. -/
theorem Mark.foldl_after_first (gs : List Glyph) :
    gs.foldl Mark.after .first = ⟨(gs.flatMap bytes).length,
      newlines (gs.flatMap bytes) + 1, (lastLine (gs.flatMap bytes)).length + 1⟩ := by
  induction gs using reverseRec with
  | nil => rfl
  | append_singleton gs g ih =>
    rw [foldl_append, ih, flatMap_append]
    simp only [foldl_cons, foldl_nil, flatMap_cons, flatMap_nil, append_nil, length_append,
      newlines, count_append, Mark.after]
    by_cases hg : g.code = 10
    · have hbytes : g.bytes = [10] := bytes_of_isNewline (beq_iff_eq.mpr hg)
      rw [if_pos hg, size, hbytes, lastLine_eq_nil (.inr ⟨_, rfl⟩)]
      rfl
    · have hbytes : 10 ∉ g.bytes := fun hmem => hg ((mem_bytes_iff (by decide)).mp hmem)
      rw [if_neg hg, lastLine_append _ hbytes, count_eq_zero.mpr hbytes, length_append, size]
      simp only [Nat.add_zero, Mark.mk.injEq, true_and]
      omega

/-- The line and the column of the place behind some characters, of which the last ones stand on one
line. -/
theorem SourceText.position_behind {name text : Bytes} {lines line rest : List Glyph} {off : Nat}
    (hdecode : decode text = lines ++ line ++ rest)
    (hlines : lines.flatMap bytes = [] ∨ ∃ front, lines.flatMap bytes = front ++ [10])
    (hline : ∀ g ∈ line, g.isNewline = false)
    (hoff : off = ((lines ++ line).flatMap bytes).length) :
    lineOf ⟨name, text⟩ off = newlines (text.take off) ∧
      lineStart ⟨name, text⟩ (lineOf ⟨name, text⟩ off) = (lines.flatMap bytes).length ∧
      (position ⟨name, text⟩ off).col = line.length + 1 := by
  have htext : text = (lines ++ line).flatMap bytes ++ rest.flatMap bytes := by
    rw [← flatMap_append, ← hdecode, flatMap_bytes_decode]
  have hclamp : clamp ⟨name, text⟩ off = off := by
    rw [clamp, Int.toNat_natCast, Nat.min_eq_left]
    simp [htext, hoff]
  have htake : text.take off = lines.flatMap bytes ++ line.flatMap bytes := by
    rw [hoff, htext, take_left, flatMap_append]
  have hlineOf : lineOf ⟨name, text⟩ off = newlines (text.take off) := by rw [lineOf_eq, hclamp]
  have hstart : lineStart ⟨name, text⟩ (lineOf ⟨name, text⟩ off) =
      (lines.flatMap bytes).length := by
    rw [hlineOf, htake, newlines, count_append, count_eq_zero.mpr (notMem_flatMap_bytes hline),
      Nat.add_zero, htext, flatMap_append, append_assoc]
    exact lineStart_eq name _ hlines
  refine ⟨hlineOf, hstart, ?_⟩
  have hslice : text.slice (lines.flatMap bytes).length off = line.flatMap bytes := by
    rw [slice, hoff, htext, flatMap_append, append_assoc, drop_left, length_append,
      Nat.add_sub_cancel_left, take_left]
  have hcount : decode (line.flatMap bytes) = line := by
    rw [htext, flatMap_append, append_assoc, append_assoc] at hdecode
    exact (decode_split (decode_split hdecode rfl).2 rfl).1
  rw [position, hclamp, hstart, hslice, charCount, hcount]

theorem Lexer.take_token {source : Bytes} {t : Token} (ht : t ∈ Lexer.tokens source) :
    ∃ before own after : List Glyph, decode source = before ++ (own ++ after) ∧
      t.lexeme = own.flatMap bytes ∧ source.take t.pos = before.flatMap bytes ∧
      source.take t.extent.stop = source.take t.pos ++ t.lexeme ∧
      t.mark = ⟨(source.take t.pos).length, newlines (source.take t.pos) + 1,
        (lastLine (source.take t.pos)).length + 1⟩ := by
  obtain ⟨before, own, after, hdecode, hmark, hlexeme⟩ := (Lexer.tiles_tokens source).parts ht
  rw [Mark.foldl_after_first] at hmark
  have hpos : t.pos = (before.flatMap bytes).length := by rw [Token.pos, hmark]
  have hsource := congrArg (flatMap bytes) hdecode
  rw [flatMap_bytes_decode, flatMap_append, flatMap_append, ← hlexeme] at hsource
  have htake : source.take t.pos = before.flatMap bytes := by
    rw [hpos, hsource, append_assoc, take_left]
  refine ⟨before, own, after, hdecode.trans (append_assoc ..), hlexeme, htake, ?_, htake ▸ hmark⟩
  rw [htake, Token.extent, hpos, ← length_append, hsource, take_left]

/-- All ways to count lines agree on the line of a token. The column of the lexer counts bytes from
the beginning of that line on, and the column of a message counts characters. -/
theorem Lexer.lines_agree (s : SourceText) {t : Token} (ht : t ∈ Lexer.tokens s.text) :
    t.mark.line = s.lineOf t.pos + 1 ∧ t.mark.line = (s.position t.pos).line ∧
    t.mark.line = (EditorPosition.ofOffset s.text t.pos).line + 1 ∧
    t.mark.line = 1 + Bytes.newlines (s.text.take t.pos) ∧
    s.lineStart (s.lineOf t.pos) ≤ t.pos ∧
    t.mark.col = t.pos - s.lineStart (s.lineOf t.pos) + 1 ∧
    ∃ lines line rest, Glyph.decode s.text = lines ++ line ++ rest ∧
      (∀ g ∈ line, g.isNewline = false) ∧
      (lines.flatMap Glyph.bytes).length = s.lineStart (s.lineOf t.pos) ∧
      ((lines ++ line).flatMap Glyph.bytes).length = t.pos ∧
      (s.position t.pos).col = line.length + 1 := by
  obtain ⟨name, text⟩ := s
  change t ∈ Lexer.tokens text at ht
  obtain ⟨before, own, after, hdecode, -, htake, -, hmark⟩ := Lexer.take_token ht
  obtain ⟨lines, line, rfl, hlines, hline⟩ := EditorPosition.exists_lines before
  rw [htake] at hmark
  have hpos : t.pos = ((lines ++ line).flatMap Glyph.bytes).length := by rw [Token.pos, hmark]
  obtain ⟨hlineOf, hstart, hcol⟩ := SourceText.position_behind hdecode hlines hline hpos
  have hmarkLine : t.mark.line = Bytes.newlines (text.take t.pos) + 1 := by rw [hmark, htake]
  have heditor : (EditorPosition.ofOffset text t.pos).line = Bytes.newlines (text.take t.pos) := by
    rw [← hlineOf, SourceText.lineOf_eq, EditorPosition.ofOffset_eq]
    rfl
  rw [List.flatMap_append, List.length_append] at hpos
  refine ⟨hlineOf ▸ hmarkLine, hmarkLine.trans (congrArg (· + 1) hlineOf.symm), heditor ▸ hmarkLine,
    hmarkLine.trans (Nat.add_comm _ 1), by omega, ?_, lines, line, own ++ after, hdecode, hline,
    hstart.symm, by rw [hpos, List.flatMap_append, List.length_append], hcol⟩
  rw [hmark, hstart, hpos, Nat.add_sub_cancel_left, List.flatMap_append, Bytes.lastLine_append _
    (EditorPosition.notMem_flatMap_bytes hline), Bytes.lastLine_eq_nil hlines]
  rfl

/-- A name behind a string that goes on over two lines, with characters of one to four bytes and a
byte that begins no character. -/
theorem Lexer.lines_agree_string :
    let s : SourceText := ⟨"a.lua", "--\r\ns = 'é\\\n" ++ ([0xff] : Bytes) ++ "\\\n😀' x"⟩
    let t : Token := ⟨.name, "x", ⟨22, 4, 7⟩⟩
    t ∈ Lexer.tokens s.text ∧ s.lineOf t.pos = 3 ∧ s.position t.pos = ⟨4, 4⟩ ∧
      t.mark.line = s.lineOf t.pos + 1 := by
  intro s t
  have ht : t ∈ Lexer.tokens s.text := by decide +kernel
  exact ⟨ht, by decide +kernel, by decide +kernel, (Lexer.lines_agree s ht).1⟩

end LuaLint
