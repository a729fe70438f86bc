import LuaLint.Proofs.Lexing.Lookahead

/-!
# Tokens tile their source

The tokens of a source and the white space between them make up the source, in order and without
gaps. Every token but the last takes at least one glyph, so the lexer needs no more steps than there
are bytes, and the last token is the end token.

Main statements: `Lexer.tiles_tokens`, `Tiles.ends`, `Tiles.ordered`.
-/

namespace LuaLint

open List Scanner Mark Glyph

/-- Tokens that make up a list of glyphs from a mark on, with white space before each of them. A
name takes all that may continue it. -/
inductive Tiles : Mark → List Glyph → List Token → Prop where
  | done {m : Mark} {blanks : List Glyph} :
      (∀ g ∈ blanks, Blank.isLuaSpace g.code) →
      Tiles m blanks [⟨.eof, [], blanks.foldl Mark.after m⟩]
  | token {m : Mark} {blanks gs rest : List Glyph} {kind : TokenKind} {ts : List Token} :
      (∀ g ∈ blanks, Blank.isLuaSpace g.code) → gs ≠ [] → Lexeme kind (gs.flatMap Glyph.bytes) →
      Lexer.EndsName kind rest → Tiles (gs.foldl Mark.after (blanks.foldl Mark.after m)) rest ts →
      Tiles m (blanks ++ gs ++ rest)
        (⟨kind, gs.flatMap Glyph.bytes, blanks.foldl Mark.after m⟩ :: ts)

/-! ## Running the lexer -/

namespace Lexer

/-- The tokens that a scanner reads, up to and including the end token. -/
inductive Scans : Scanner → List Token → Prop where
  | done {s : Scanner} : (next s).1.kind = .eof → Scans s [(next s).1]
  | token {s : Scanner} {ts : List Token} :
      (next s).1.kind ≠ .eof → Scans (next s).2 ts → Scans s ((next s).1 :: ts)

theorem scans_collect (fuel : Nat) (s : Scanner) (hfuel : s.rest.length ≤ fuel) :
    Scans s (collect fuel (next s)).1 := by
  induction fuel generalizing s with
  | zero =>
    have hend : (next s).1.kind = .eof := by
      rcases takes_cases s with hblank | ⟨kind, blanks, gs, rest, hrest, hgs, -⟩
      · rw [(next_blank hblank).1]
      · rw [hrest] at hfuel
        exact absurd (by simp at hfuel; exact hfuel.2.1) hgs
    exact .done hend
  | succ fuel ih =>
    by_cases hend : (next s).1.kind = .eof
    · have hcollect : (collect (fuel + 1) (next s)).1 = [(next s).1] := by simp [collect, hend]
      rw [hcollect]
      exact .done hend
    · have hcollect : (collect (fuel + 1) (next s)).1 =
          (next s).1 :: (collect fuel (next (next s).2)).1 := by simp [collect, hend]
      rw [hcollect]
      refine .token hend (ih _ ?_)
      rcases takes_cases s with hblank | ⟨kind, blanks, gs, rest, hrest, hgs, -, -, -, htakes⟩
      · exact absurd (by rw [(next_blank hblank).1]) hend
      · have hpos := length_pos_iff.mpr hgs
        rw [hrest, length_append, length_append] at hfuel
        rw [htakes.after.rest]
        omega

theorem Scans.tiles {s : Scanner} {ts : List Token} (h : Scans s ts) : Tiles s.here s.rest ts := by
  induction h with
  | @done s hend =>
    rcases takes_cases s with hblank | ⟨kind, blanks, gs, rest, -, -, -, hlex, -, htakes⟩
    · rw [(next_blank hblank).1]
      exact .done hblank
    · have hkind : kind = .eof := by rw [← hend, htakes.token]
      rw [hkind] at hlex
      exact hlex.elim
  | @token s ts hne _ ih =>
    rcases takes_cases s with hblank |
      ⟨kind, blanks, gs, rest, hs, hgs, hblanks, hlex, hend, htakes⟩
    · exact absurd (by rw [(next_blank hblank).1]) hne
    · rw [htakes.after.here, htakes.after.rest] at ih
      rw [hs, htakes.token]
      exact .token hblanks hgs hlex (fun hname => (hend (by simp [hname])).1 hname) ih

theorem tiles_emit {s : Scanner} (hs : s.Fresh) (kind : TokenKind) {n : Nat} {ts : List Token}
    (hgs : s.rest.take n ≠ []) (hlex : Lexeme kind ((s.rest.take n).flatMap bytes))
    (hkind : kind ≠ .name) (hts : Tiles (s.advanceBy n).here (s.advanceBy n).rest ts) :
    Tiles s.here s.rest ((emit kind (s.advanceBy n)).1 :: ts) := by
  rw [advanceBy_here, advanceBy_rest] at hts
  have := @Tiles.token s.here [] _ _ kind _ (by simp) hgs hlex (fun hname => absurd hname hkind) hts
  rw [nil_append, take_append_drop] at this
  rw [hs.emit_eq]
  exact this

theorem firstToken_cases (source : Bytes) :
    firstToken (.ofSource source) = next (.ofSource source) ∨
    ∃ n, decode source ≠ [] ∧
      firstToken (.ofSource source) = emit .hashBang
        ((Scanner.ofSource source).advanceBy (n + 1)) := by
  unfold firstToken
  split
  · rename_i s' hbang
    right
    obtain ⟨n, hn⟩ : ∃ n, emit .hashBang (s'.acceptWhile (· != 10)) =
        emit .hashBang ((ofSource source).advanceBy (n + 1)) := by
      simp only [acceptText, Option.ite_none_right_eq_some, Option.some.injEq] at hbang
      rw [← hbang.2, acceptWhile, advanceBy_add]
      exact ⟨_, congrArg _ (congrArg (advanceBy · _) (Nat.succ_add 1 _))⟩
    refine ⟨n, ?_, hn⟩
    intro hnil
    simp [acceptText, ofSource, hnil] at hbang
    exact absurd hbang.1 (by decide)
  · exact .inl rfl

/-- The tokens of a source tile it. -/
theorem tiles_tokens (source : Bytes) : Tiles .first (decode source) (tokens source) := by
  have hlen : (decode source).length ≤ source.length := length_decode_le source
  unfold tokens run
  rcases firstToken_cases source with hnext | ⟨n, hne, hbang⟩
  · rw [hnext]
    exact (scans_collect source.length (.ofSource source) hlen).tiles
  · have hgs : (decode source).take (n + 1) ≠ [] := by simpa using hne
    obtain ⟨fuel, hfuel⟩ : ∃ fuel, source.length = fuel + 1 :=
      Nat.exists_eq_add_one.mpr (Nat.lt_of_lt_of_le (length_pos_iff.mpr hne) hlen)
    have htail := (scans_collect fuel ((ofSource source).advanceBy (n + 1)).ignore (by
      show ((ofSource source).advanceBy (n + 1)).rest.length ≤ fuel
      rw [advanceBy_rest, length_drop]
      show (decode source).length - (n + 1) ≤ fuel
      omega)).tiles
    have hfirst := tiles_emit (fresh_ofSource source) .hashBang hgs trivial (by simp) htail
    rw [hbang, hfuel]
    exact hfirst

end Lexer

/-! ## Order -/

theorem Mark.pos_after (m : Mark) (g : Glyph) : (m.after g).pos = m.pos + g.size := by
  unfold after
  split <;> rfl

theorem Mark.pos_foldl_after (m : Mark) (gs : List Glyph) :
    (gs.foldl Mark.after m).pos = m.pos + (gs.flatMap bytes).length := by
  induction gs generalizing m with
  | nil => rfl
  | cons g gs ih =>
    rw [foldl_cons, ih, pos_after, flatMap_cons, length_append, size, Nat.add_assoc]

namespace Tiles

variable {m : Mark} {gs : List Glyph} {ts : List Token}

variable (h : Tiles m gs ts)
include h

/-- All tokens but the last have a lexeme that fits their kind; the last is the end token. -/
theorem ends : ∃ init e, ts = init ++ [e] ∧ e.kind = .eof ∧
      ∀ t ∈ init, Lexeme t.kind t.lexeme ∧ t.lexeme ≠ [] := by
  induction h with
  | done => exact ⟨[], _, rfl, rfl, by simp⟩
  | token _ hgs hlex _ _ ih =>
    obtain ⟨init, e, rfl, he, hinit⟩ := ih
    refine ⟨_ :: init, e, rfl, he, ?_⟩
    rw [forall_mem_cons]
    exact ⟨⟨hlex, flatMap_bytes_ne_nil hgs⟩, hinit⟩

theorem lexeme_of_mem {t : Token} (ht : t ∈ ts) (hkind : t.kind ≠ .eof) :
    Lexeme t.kind t.lexeme := by
  obtain ⟨init, e, rfl, he, hinit⟩ := h.ends
  rcases mem_append.mp ht with ht | ht
  · exact (hinit t ht).1
  · rw [mem_singleton.mp ht] at hkind
    exact absurd he hkind

/-- The last token stands at the end. -/
theorem last : ∃ e, ts.getLast? = some e ∧ e.pos = m.pos + (gs.flatMap bytes).length := by
  induction h with
  | done => exact ⟨_, rfl, pos_foldl_after _ _⟩
  | token _ _ _ _ hrest ih =>
    obtain ⟨e, he, hpos⟩ := ih
    refine ⟨e, by rw [getLast?_cons, he]; rfl, ?_⟩
    rw [hpos, pos_foldl_after, pos_foldl_after, flatMap_append, flatMap_append,
      length_append, length_append]
    omega

theorem bounds :
    ∀ t ∈ ts, m.pos ≤ t.pos ∧ t.pos + t.lexeme.length ≤ m.pos + (gs.flatMap bytes).length := by
  induction h with
  | done =>
    rw [forall_mem_singleton]
    simp [Token.pos, pos_foldl_after]
  | token _ _ _ _ _ ih =>
    rw [forall_mem_cons]
    constructor
    · simp only [Token.pos, pos_foldl_after, flatMap_append, length_append]
      omega
    · intro t ht
      have := ih t ht
      simp only [pos_foldl_after] at this
      simp only [flatMap_append, length_append]
      omega

/-- Each token ends before the next one begins. -/
theorem ordered : ts.Pairwise fun t u => t.pos + t.lexeme.length ≤ u.pos := by
  induction h with
  | done => exact pairwise_singleton _ _
  | token _ _ _ _ hrest ih =>
    refine pairwise_cons.mpr ⟨?_, ih⟩
    intro u hu
    have := (hrest.bounds u hu).1
    rw [pos_foldl_after] at this
    exact this

theorem pos_lt : ts.Pairwise fun t u => t.pos < u.pos := by
  induction h with
  | done => exact pairwise_singleton _ _
  | token _ hgs _ _ hrest ih =>
    refine pairwise_cons.mpr ⟨fun u hu => ?_, ih⟩
    have hle := (hrest.bounds u hu).1
    have hpos := length_pos_iff.mpr (flatMap_bytes_ne_nil hgs)
    rw [pos_foldl_after] at hle
    exact Nat.lt_of_lt_of_le (Nat.lt_add_of_pos_right hpos) hle

theorem parts {t : Token} (ht : t ∈ ts) :
    ∃ before own after, gs = before ++ own ++ after ∧ t.mark = before.foldl Mark.after m ∧
      t.lexeme = own.flatMap bytes := by
  induction h with
  | @done m blanks _ =>
    obtain rfl := mem_singleton.mp ht
    exact ⟨blanks, [], [], by simp, rfl, rfl⟩
  | @token m blanks gs rest kind ts _ _ _ _ _ ih =>
    rcases mem_cons.mp ht with rfl | ht
    · exact ⟨blanks, gs, rest, rfl, rfl, rfl⟩
    · obtain ⟨before, own, after, rfl, hmark, hlexeme⟩ := ih ht
      exact ⟨blanks ++ gs ++ before, own, after, by simp, by simp [hmark], hlexeme⟩

theorem head_of_name : ∀ t ∈ ts, t.kind = .name → t.pos = m.pos →
    ∃ g ∈ gs.head?, Ascii.isNameStart g.code = true := by
  cases h with
  | done => simp
  | @token _ blanks gs rest kind ts _ hgs hlex _ hrest =>
    intro t ht hname hpos
    rcases mem_cons.mp ht with rfl | ht
    · -- No blank comes before it, since blanks are not empty.
      rw [Token.pos, pos_foldl_after] at hpos
      have hblanks : blanks.flatMap bytes = [] := length_eq_zero_iff.mp (by omega)
      obtain rfl : blanks = [] := by
        cases blanks with
        | nil => rfl
        | cons b blanks => exact absurd hblanks (flatMap_bytes_ne_nil (cons_ne_nil b blanks))
      obtain rfl : kind = .name := hname
      obtain ⟨g, hg, hstart⟩ := Lexer.head_isName hlex
      exact ⟨g, by rw [nil_append, head?_append, hg]; rfl, hstart⟩
    · have hlength := length_pos_iff.mpr (flatMap_bytes_ne_nil hgs)
      have hle := (hrest.bounds t ht).1
      rw [pos_foldl_after, pos_foldl_after] at hle
      omega

/-- Between two names there is something else. -/
theorem names_apart {t u : Token} (ht : t ∈ ts) (hu : u ∈ ts) (hname : t.kind = .name)
    (hname' : u.kind = .name) : t.pos + t.lexeme.length ≠ u.pos := by
  induction h with
  | done =>
    obtain rfl := mem_singleton.mp ht
    cases hname
  | @token m blanks gs rest kind ts _ hgs _ hend hrest ih =>
    have hlength := length_pos_iff.mpr (flatMap_bytes_ne_nil hgs)
    intro hstop
    rcases mem_cons.mp ht with rfl | ht' <;> rcases mem_cons.mp hu with rfl | hu'
    · exact absurd hstop (Nat.ne_of_gt (Nat.lt_add_of_pos_right hlength))
    · -- The glyph behind a name does not continue it, and a name would begin with it.
      obtain ⟨g, hg, hstart⟩ :=
        hrest.head_of_name u hu' hname' (by rw [← hstop, pos_foldl_after]; rfl)
      have hcode := hend hname g hg
      simp [Ascii.isName, hstart] at hcode
    · have hle := (hrest.bounds t ht').1
      rw [pos_foldl_after] at hle
      have hpos : t.pos + t.lexeme.length = (blanks.foldl after m).pos := hstop
      omega
    · exact ih ht' hu' hstop

end Tiles

end LuaLint
