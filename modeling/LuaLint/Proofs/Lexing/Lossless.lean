import Mathlib.Data.List.TakeWhile
import Mathlib.Data.Nat.Find
import LuaLint.Proofs.Lexing.Tiling

/-!
# Reading token after token

A source is read by asking for its next token again and again. The lexemes of the tokens and the
white space in front of them are consecutive pieces of the source. After at most one token for every
byte the end token comes, and nothing else after it.

Main statements: `Lexer.reading_read`, `Lexer.tokens_eq_map_read`, `Lexer.read_lossless`.
-/

namespace LuaLint

open List Glyph

namespace Lexer

/-! ## Reading on and on -/

def read (source : Bytes) : Nat → Token × Scanner
  | 0 => firstToken (.ofSource source)
  | i + 1 => next (read source i).2

/-- The offset from which the token with a number is read: the end of the token before. -/
def resume (source : Bytes) : Nat → Nat
  | 0 => 0
  | i + 1 => (read source i).1.extent.stop

/-- A scanner stands at an offset of a source. -/
structure Stands (source : Bytes) (s : Scanner) (pos : Nat) : Prop where
  here : s.here.pos = pos
  rest : ∃ before : Bytes, before.length = pos ∧ source = before ++ s.rest.flatMap Glyph.bytes

/-- What reading one token from an offset on takes from a source: white space, and then the lexeme
of the token. Only at the end of the source the lexeme is empty. -/
structure Reading (source : Bytes) (pos : Nat) (r : Token × Scanner) : Prop where
  after : pos ≤ r.1.pos
  blank : ∀ b ∈ source.slice pos r.1.pos, Blank.isLuaSpace b.toNat
  lexeme : r.1.lexeme = source.slice r.1.pos r.1.extent.stop
  ends : r.1.kind = .eof ∧ r.1.extent = ⟨source.length, source.length⟩ ∨
    r.1.kind ≠ .eof ∧ r.1.lexeme ≠ []
  stands : Stands source r.2 r.1.extent.stop

/-! ## One token -/

theorem slice_append (a b c : Bytes) : (a ++ b ++ c).slice a.length (a.length + b.length) = b := by
  simp [Bytes.slice]

theorem blank_of_mem_flatMap {gs : List Glyph} (h : ∀ g ∈ gs, Blank.isLuaSpace g.code) :
    ∀ b ∈ gs.flatMap Glyph.bytes, Blank.isLuaSpace b.toNat := by
  intro b hb
  obtain ⟨g, hg, hmem⟩ := mem_flatMap.mp hb
  have hcode : g.code < 128 := by
    have hspace := h g hg
    simp only [Blank.isLuaSpace, Bool.or_eq_true, beq_iff_eq, Bool.and_eq_true,
      decide_eq_true_eq] at hspace
    omega
  rw [bytes_of_code_lt hcode, mem_singleton] at hmem
  rw [hmem, UInt8.toNat_ofNat', Nat.mod_eq_of_lt (by omega)]
  exact h g hg

theorem Reading.of_split {source before : Bytes} {m : Mark} {blanks gs rest : List Glyph}
    {kind : TokenKind} {r : Token × Scanner} (hm : m.pos = before.length)
    (hsource : source = before ++ (blanks ++ gs ++ rest).flatMap Glyph.bytes)
    (hblank : ∀ g ∈ blanks, Blank.isLuaSpace g.code)
    (htoken : r.1 = ⟨kind, gs.flatMap Glyph.bytes, blanks.foldl Mark.after m⟩)
    (hat : r.2.here = gs.foldl Mark.after (blanks.foldl Mark.after m)) (hrest : r.2.rest = rest)
    (hkind : kind = .eof ∧ gs ++ rest = [] ∨ kind ≠ .eof ∧ gs.flatMap Glyph.bytes ≠ []) :
    Reading source before.length r := by
  have hpos : r.1.pos = before.length + (blanks.flatMap bytes).length := by
    rw [htoken, Token.pos, Mark.pos_foldl_after, hm]
  have hlexeme : r.1.lexeme = gs.flatMap bytes := by rw [htoken]
  have hstop : r.1.extent.stop = r.1.pos + (gs.flatMap bytes).length := by
    rw [Token.extent, hlexeme]
  rw [flatMap_append, flatMap_append] at hsource
  refine ⟨by omega, ?_, ?_, ?_, ⟨?_, ?_⟩⟩
  · -- The white space follows what was read before, and the lexeme follows the white space.
    rw [hpos, hsource, append_assoc (blanks.flatMap _), ← append_assoc, slice_append]
    exact blank_of_mem_flatMap hblank
  · have hslice := slice_append (before ++ blanks.flatMap bytes) (gs.flatMap bytes)
      (rest.flatMap bytes)
    rw [length_append, ← hpos, ← hstop] at hslice
    rw [hlexeme, hsource, ← append_assoc, ← append_assoc, hslice]
  · rcases hkind with ⟨rfl, hnil⟩ | ⟨hne, hgs⟩
    · -- With nothing left but white space, the token stands past the last byte.
      obtain ⟨rfl, rfl⟩ := append_eq_nil_iff.mp hnil
      refine .inl ⟨by rw [htoken], ?_⟩
      rw [Token.extent, hlexeme, hpos, hsource]
      simp
    · exact .inr ⟨by rwa [htoken], by rwa [hlexeme]⟩
  · rw [hat, Mark.pos_foldl_after, Mark.pos_foldl_after, hm, hstop, hpos]
  · refine ⟨before ++ blanks.flatMap bytes ++ gs.flatMap bytes, ?_, ?_⟩
    · rw [hstop, hpos, length_append, length_append]
    · rw [hsource, hrest]
      simp

theorem reading_next {source : Bytes} {s : Scanner} {pos : Nat} (h : Stands source s pos) :
    Reading source pos (next s) := by
  obtain ⟨hhere, before, rfl, hsource⟩ := h
  rcases takes_cases s with
    hblank | ⟨kind, blanks, gs, rest, hrest, hgs, hblank, hlex, -, htakes⟩
  · obtain ⟨hnext, hat⟩ := next_blank hblank
    have hsplit : source = before ++ (s.rest ++ [] ++ []).flatMap bytes := by
      rw [hsource, append_nil, append_nil]
    exact .of_split hhere hsplit hblank hnext hat.here hat.rest (.inl ⟨rfl, rfl⟩)
  · refine .of_split hhere (hrest ▸ hsource) hblank htakes.token htakes.after.here
      htakes.after.rest (.inr ⟨?_, ?_⟩)
    · rintro rfl
      exact hlex
    · exact flatMap_bytes_ne_nil hgs

theorem reading_firstToken (source : Bytes) : Reading source 0 (firstToken (.ofSource source)) := by
  have hstands : Stands source (.ofSource source) 0 :=
    ⟨rfl, [], rfl, (flatMap_bytes_decode source).symm⟩
  rcases firstToken_cases source with hnext | ⟨n, hne, hbang⟩
  · rw [hnext]
    exact reading_next hstands
  · -- An interpreter line is a token of its own, at the very beginning.
    rw [hbang, (Scanner.fresh_ofSource source).emit_eq]
    have hsplit : source = [] ++ ([] ++ (decode source).take (n + 1) ++
        (decode source).drop (n + 1)).flatMap bytes := by
      rw [nil_append, nil_append, take_append_drop, flatMap_bytes_decode]
    refine .of_split rfl hsplit (by simp) rfl (Scanner.advanceBy_here ..)
      (Scanner.advanceBy_rest ..) (.inr ⟨by simp, flatMap_bytes_ne_nil ?_⟩)
    simpa using hne

/-! ## All tokens -/

variable (source : Bytes)

/-- The token with each number is read where the one before it has ended. -/
theorem reading_read (i : Nat) : Reading source (resume source i) (read source i) := by
  induction i with
  | zero => exact reading_firstToken source
  | succ i ih => exact reading_next ih.stands

theorem resume_le_pos {i j : Nat} (h : i ≤ j) : resume source i ≤ (read source j).1.pos := by
  induction h with
  | refl => exact (reading_read source i).after
  | @step j _ ih =>
    have hstop : (read source j).1.pos ≤ resume source (j + 1) := Nat.le_add_right ..
    exact ih.trans (hstop.trans (reading_read source (j + 1)).after)

theorem le_resume (i : Nat) (h : ∀ j < i, (read source j).1.kind ≠ .eof) : i ≤ resume source i := by
  induction i with
  | zero => exact Nat.zero_le _
  | succ i ih =>
    have hi := ih fun j hj => h j (Nat.lt_succ_of_lt hj)
    have hread := reading_read source i
    have hne : (read source i).1.lexeme ≠ [] :=
      (hread.ends.resolve_left fun hend => h i (Nat.lt_succ_self i) hend.1).2
    have hpos := length_pos_iff.mpr hne
    have hafter := hread.after
    show i + 1 ≤ (read source i).1.pos + (read source i).1.lexeme.length
    omega

theorem resume_le_length (i : Nat) : resume source i ≤ source.length := by
  cases i with
  | zero => exact Nat.zero_le _
  | succ i =>
    obtain ⟨before, hlength, hsource⟩ := (reading_read source i).stands.rest
    show (read source i).1.extent.stop ≤ source.length
    rw [← hlength, hsource, length_append]
    exact Nat.le_add_right ..

theorem exists_eof : ∃ i ≤ source.length, (read source i).1.kind = .eof := by
  -- Otherwise there would be more tokens than bytes, each of which takes one.
  by_contra hnone
  have hle := le_resume source (source.length + 1) fun j hj hend =>
    hnone ⟨j, Nat.le_of_lt_succ hj, hend⟩
  have := resume_le_length source (source.length + 1)
  omega

theorem eof_succ {i : Nat} (h : (read source i).1.kind = .eof) :
    (read source (i + 1)).1.kind = .eof := by
  have hextent : (read source i).1.extent = ⟨source.length, source.length⟩ :=
    ((reading_read source i).ends.resolve_right fun hne => hne.1 h).2
  have hread := reading_read source (i + 1)
  rcases hread.ends with hend | ⟨-, hne⟩
  · exact hend.1
  · -- Past the last byte there is no lexeme.
    have hafter : source.length ≤ (read source (i + 1)).1.pos := by
      have := hread.after
      rwa [resume, hextent] at this
    refine absurd ?_ hne
    rw [hread.lexeme, Bytes.slice, drop_eq_nil_of_le hafter, take_nil]

theorem eof_of_le {i j : Nat} (hij : i ≤ j) (h : (read source i).1.kind = .eof) :
    (read source j).1.kind = .eof := by
  induction hij with
  | refl => exact h
  | step _ ih => exact eof_succ source ih

theorem collect_read {n : Nat} (hend : (read source n).1.kind = .eof)
    (hbefore : ∀ j < n, (read source j).1.kind ≠ .eof) (fuel i : Nat) (hi : i ≤ n)
    (hfuel : n - i ≤ fuel) : (collect fuel (read source i)).1 =
      (List.range' i (n + 1 - i)).map fun j => (read source j).1 := by
  induction fuel generalizing i with
  | zero =>
    obtain rfl : i = n := by omega
    simp [collect]
  | succ fuel ih =>
    rcases Nat.eq_or_lt_of_le hi with rfl | hlt
    · simp [collect, hend]
    · have hrest := ih (i + 1) hlt (by omega)
      have hcount : n + 1 - i = (n + 1 - (i + 1)) + 1 := by omega
      rw [hcount, range'_succ, map_cons, ← hrest]
      simp [collect, hbefore i hlt, read]

/-- The tokens of a source are those read up to the first end token. -/
theorem tokens_eq_map_read {n : Nat} (hn : n ≤ source.length)
    (hend : (read source n).1.kind = .eof) (hbefore : ∀ j < n, (read source j).1.kind ≠ .eof) :
    tokens source = (List.range (n + 1)).map fun i => (read source i).1 := by
  have hcollect := collect_read source hend hbefore source.length 0 (Nat.zero_le n) (by omega)
  rw [range_eq_range']
  exact hcollect

theorem text_of_not_error {t : Token} (h : ∀ cause, t.kind ≠ .error cause) : t.text = t.lexeme := by
  unfold Token.text
  split
  · rename_i cause hkind
    exact absurd hkind (h cause)
  · rfl

/-- Reading is lossless and ends. The end token comes after at most one token for every byte, at the
end of the source, and comes again for ever. The tokens before it cover pieces of the source that
are not empty and follow each other, with nothing but white space in between. The text of a token
is its piece of the source, unless it is an error, whose text is a message. -/
theorem read_lossless :
    ∃ n ≤ source.length,
      tokens source = (List.range (n + 1)).map (fun i => (read source i).1) ∧
      (∀ i, (read source i).1.kind = .eof ↔ n ≤ i) ∧
      (∀ i, n ≤ i → (read source i).1.extent = ⟨source.length, source.length⟩) ∧
      (∀ i < n, (read source i).1.extent.start < (read source i).1.extent.stop) ∧
      (∀ i j, i < j → (read source i).1.extent.stop ≤ (read source j).1.extent.start) ∧
      (∀ i, ∀ b ∈ source.slice (resume source i) (read source i).1.extent.start,
        Blank.isLuaSpace b.toNat) ∧
      (∀ i, (read source i).1.lexeme =
        source.slice (read source i).1.extent.start (read source i).1.extent.stop) ∧
      (∀ i, (∀ cause, (read source i).1.kind ≠ .error cause) →
        (read source i).1.text = source.slice (read source i).1.pos (read source i).1.stop) ∧
      (∀ i cause, (read source i).1.kind = .error cause → (read source i).1.text = cause.message) ∧
      ∀ i, (read source i).2.here.pos = (read source i).1.extent.stop := by
  obtain ⟨last, hlast, hend⟩ := exists_eof source
  have hex : ∃ i, (read source i).1.kind = .eof := ⟨last, hend⟩
  -- The number of tokens is that of the first end token.
  have hfind : (read source (Nat.find hex)).1.kind = .eof := Nat.find_spec hex
  have hbefore : ∀ j < Nat.find hex, (read source j).1.kind ≠ .eof := fun j hj =>
    Nat.find_min hex hj
  have hn : Nat.find hex ≤ source.length := Nat.le_trans (Nat.find_min' hex hend) hlast
  have heof : ∀ i, (read source i).1.kind = .eof ↔ Nat.find hex ≤ i := fun i =>
    ⟨Nat.find_min' hex, fun hle => eof_of_le source hle hfind⟩
  refine ⟨Nat.find hex, hn, tokens_eq_map_read source hn hfind hbefore, heof, ?_, ?_, ?_, ?_, ?_,
    ?_, ?_, ?_⟩
  · intro i hi
    exact ((reading_read source i).ends.resolve_right fun hne => hne.1 ((heof i).mpr hi)).2
  · intro i hi
    have hne := ((reading_read source i).ends.resolve_left fun hend => hbefore i hi hend.1).2
    exact Nat.lt_add_of_pos_right (List.length_pos_iff.mpr hne)
  · exact fun i j (hij : i + 1 ≤ j) => resume_le_pos source hij
  · exact fun i => (reading_read source i).blank
  · exact fun i => (reading_read source i).lexeme
  · intro i hi
    have htext := text_of_not_error hi
    rw [Token.stop, htext]
    exact (reading_read source i).lexeme
  · intro i cause hcause
    rw [Token.text, hcause]
  · exact fun i => (reading_read source i).stands.here

end Lexer

end LuaLint
