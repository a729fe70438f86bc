import LuaLint.Proofs.Lexing.Lines

/-!
# What a scanner keeps

Whatever is asked of a scanner, in whatever order: it either takes some of the characters that come
next, or begins a new token where it stands. So what it has taken is a part of the source, and both
of its marks count the lines and columns up to a place between two characters.

Main statements: `Scanner.Follows.step`, `Scanner.run_keeps`.
-/

namespace LuaLint

open List Glyph Bytes EditorPosition

/-- A mark that counts what lies before it in a source, and does not stand within a character. -/
structure Mark.Counts (source : Bytes) (m : Mark) : Prop where
  cut : IsCut source m.pos
  line : m.line = 1 + newlines (source.take m.pos)
  col : m.col = (lastLine (source.take m.pos)).length + 1

namespace Scanner

/-- What can be asked of a scanner. A literal is text, so that its bytes are valid. -/
inductive Request where
  | scan
  | accept (p : Nat → Bool)
  | acceptWhile (p : Nat → Bool)
  | acceptText (literal : String)
  | ignore
  | emit (kind : TokenKind)

/-- The scanner after a request. One that is refused changes nothing. -/
def answer (s : Scanner) : Request → Scanner
  | .scan => s.advance
  | .accept p => (s.acceptIf p).getD s
  | .acceptWhile p => s.acceptWhile p
  | .acceptText literal => (s.acceptText literal).getD s
  | .ignore => s.ignore
  | .emit kind => (Lexer.emit kind s).2

theorem answer_cases (s : Scanner) (r : Request) :
    (∃ n, s.answer r = s.advanceBy n) ∨ s.answer r = s.ignore := by
  cases r with
  | scan => exact .inl ⟨1, rfl⟩
  | accept p =>
    rw [answer, acceptIf_eq]
    split
    · exact .inl ⟨1, rfl⟩
    · exact .inl ⟨0, rfl⟩
  | acceptWhile p => exact .inl ⟨s.countWhile p, rfl⟩
  | acceptText literal =>
    rw [answer, acceptText]
    split
    · exact .inl ⟨_, rfl⟩
    · exact .inl ⟨0, rfl⟩
  | ignore => exact .inr rfl
  | emit kind => exact .inr rfl

/-! ## Following the source -/

/-- A scanner that goes over a source, with the characters before the current token. -/
structure Follows (source : Bytes) (s : Scanner) (before : List Glyph) : Prop where
  glyphs : decode source = before ++ s.taken.reverse ++ s.rest
  start : s.start = before.foldl Mark.after .first
  here : s.here = (before ++ s.taken.reverse).foldl Mark.after .first

variable {source : Bytes} {s : Scanner} {before : List Glyph}

/-- Each request is followed in the source. -/
theorem Follows.step (h : Follows source s before) (r : Request) :
    ∃ before', Follows source (s.answer r) before' := by
  rcases s.answer_cases r with ⟨n, hn⟩ | hn
  · refine ⟨before, hn ▸ ⟨?_, ?_, ?_⟩⟩
    · simp [h.glyphs]
    · rw [advanceBy_start, h.start]
    · rw [advanceBy_here, h.here, ← foldl_append, advanceBy_taken]
      simp
  · refine ⟨before ++ s.taken.reverse, hn ▸ ⟨?_, h.here, ?_⟩⟩
    · simp [ignore, h.glyphs]
    · simp [ignore, h.here]

/-- So is any sequence of requests. -/
theorem follows_run (source : Bytes) (rs : List Request) :
    ∃ before, Follows source (rs.foldl answer (ofSource source)) before := by
  induction rs using reverseRec with
  | nil => exact ⟨[], rfl, rfl, rfl⟩
  | append_singleton rs r ih =>
    obtain ⟨before, h⟩ := ih
    rw [foldl_append]
    exact h.step r

theorem counts_foldl_after {gs rest : List Glyph} (h : decode source = gs ++ rest) :
    (gs.foldl Mark.after .first).Counts source := by
  have htake : source.take (gs.flatMap bytes).length = gs.flatMap bytes := by
    rw [← flatMap_bytes_decode source, h, flatMap_append, take_left]
  rw [Mark.foldl_after_first]
  exact ⟨⟨gs, rest, h, rfl⟩, by rw [htake, Nat.add_comm], by rw [htake]⟩

namespace Follows

variable (h : Follows source s before)
include h

theorem source_eq : source = before.flatMap bytes ++ s.text ++ s.rest.flatMap bytes := by
  rw [← flatMap_bytes_decode source, h.glyphs, flatMap_append, flatMap_append, text]

theorem start_pos : s.start.pos = (before.flatMap bytes).length := by
  rw [h.start, Mark.foldl_after_first]

theorem here_pos : s.here.pos = (before.flatMap bytes ++ s.text).length := by
  rw [h.here, Mark.foldl_after_first, flatMap_append, text]

theorem prefix_iff (literal : String) :
    decode (ofString literal) <+: s.rest ↔ ofString literal <+: source.drop s.here.pos := by
  have hdrop : source.drop s.here.pos = s.rest.flatMap bytes := by
    rw [h.here_pos, h.source_eq, drop_left]
  have hdecode : decode (s.rest.flatMap bytes) = s.rest := by
    have hglyphs := h.glyphs
    rw [h.source_eq] at hglyphs
    exact (decode_split hglyphs flatMap_append).2
  rw [hdrop]
  constructor
  · rintro ⟨more, hmore⟩
    rw [← hmore, flatMap_append, flatMap_bytes_decode]
    exact prefix_append _ _
  · rintro ⟨more, hmore⟩
    rw [← hdecode, ← hmore, decode_ofString]
    exact prefix_append _ _

/-- A literal is taken just if its bytes come next, and then these bytes are what is taken. -/
theorem acceptText_cases (literal : String) : let t := s.answer (.acceptText literal)
    ofString literal <+: source.drop s.here.pos ∧ t.start = s.start ∧
        t.text = s.text ++ ofString literal ∧ t.here.pos = s.here.pos + (ofString literal).length ∨
      ¬ ofString literal <+: source.drop s.here.pos ∧ t = s := by
  rw [← h.prefix_iff, answer, acceptText]
  split
  · rename_i hnext
    replace hnext := isPrefixOf_iff_prefix.mp hnext
    have htaken := prefix_iff_eq_take.mp hnext
    refine .inl ⟨hnext, advanceBy_start _ _, ?_, ?_⟩
    · rw [Option.getD_some, advanceBy_text, ← htaken, flatMap_bytes_decode]
    · rw [Option.getD_some, advanceBy_here, ← htaken, Mark.pos_foldl_after, flatMap_bytes_decode]
  · rename_i hnext
    exact .inr ⟨fun hpre => hnext <| isPrefixOf_iff_prefix.mpr hpre, rfl⟩

end Follows

/-- Whatever has been asked of a scanner: its token is the part of the source between its two marks,
these count lines and columns and stand between characters, and a literal is taken as a whole or not
at all. -/
theorem run_keeps (source : Bytes) (rs : List Request) :
    let s := rs.foldl answer (ofSource source)
    s.start.pos ≤ s.here.pos ∧ s.here.pos ≤ source.length ∧
    s.text = source.slice s.start.pos s.here.pos ∧
    s.start.Counts source ∧ s.here.Counts source ∧
    ∀ literal : String, let t := s.answer (.acceptText literal)
      ofString literal <+: source.drop s.here.pos ∧ t.start = s.start ∧
          t.text = s.text ++ ofString literal ∧ t.here.pos = s.here.pos +
            (ofString literal).length ∨
        ¬ ofString literal <+: source.drop s.here.pos ∧ t = s := by
  intro s
  obtain ⟨before, h⟩ : ∃ before, Follows source s before := follows_run source rs
  have hhere := counts_foldl_after h.glyphs
  have hstart := counts_foldl_after (h.glyphs.trans (append_assoc _ _ _))
  rw [← h.here] at hhere
  rw [← h.start] at hstart
  refine ⟨?_, hhere.cut.decode_eq.1, ?_, hstart, hhere, h.acceptText_cases⟩
  · rw [h.start_pos, h.here_pos, length_append]
    exact Nat.le_add_right _ _
  · rw [slice, h.start_pos, h.here_pos, h.source_eq, append_assoc, drop_left, length_append,
      Nat.add_sub_cancel_left, take_left]

end Scanner

end LuaLint
