import LuaLint.Proofs.Lexing.Tiling
import LuaLint.Proofs.Parsing.Soundness
import LuaLint.Proofs.Text.Results

/-!
# Parsing a source

A chunk that is parsed from a source is well formed, and it is written by exactly the code tokens of
the source: all tokens but the comments, the interpreter line and the end token.

Main statements: `Parser.chunk_of_parse`, `Parser.parse_sound`, `Parser.parse_ne_exhausted`.
-/

namespace LuaLint

open List Lexer

variable {t : Token} {is : List Ident} {ts : List Token}

/-! ## Tokens of a phrase -/

/-- Whether a token is a piece of source that is no token. -/
def Token.IsError (t : Token) : Prop := ∃ cause, t.kind = .error cause

/-- The tokens that write phrases: reserved words, signs, names, numerals and strings. -/
def TokenKind.IsProper : TokenKind → Prop
  | .keyword _ | .sign _ | .name | .number | .string | .longString => True
  | _ => False

@[grind →] theorem Token.Is.keyword_isProper {word : Keyword} (h : t.Is (.keyword word)) :
    t.kind.IsProper := by
  rw [h.1]
  trivial

@[grind →] theorem Token.Is.sign_isProper {s : Sign} (h : t.Is (.sign s)) : t.kind.IsProper := by
  rw [h.1]
  trivial

@[grind →] theorem Token.Is.binary_isProper {op : BinaryOp} (h : t.Is op.token) :
    t.kind.IsProper := by
  rw [h.1]
  cases op <;> trivial

@[grind →] theorem Token.Is.unary_isProper {op : UnaryOp} (h : t.Is op.token) :
    t.kind.IsProper := by
  rw [h.1]
  cases op <;> trivial

@[grind →] theorem Token.isProper_of_name (h : t.kind = .name) : t.kind.IsProper := by
  rw [h]
  trivial

@[grind →] theorem Token.isProper_of_number (h : t.kind = .number) : t.kind.IsProper := by
  rw [h]
  trivial

@[grind →] theorem Token.Denotes.isProper {value : Bytes} (h : t.Denotes value) :
    t.kind.IsProper := by
  cases h with
  | quoted hk _ => rw [hk]; trivial
  | bracketed hk => rw [hk]; trivial

theorem ReadsNames.isProper {sep : Sign} (h : ReadsNames (.sign sep) is ts) :
    ∀ t ∈ ts, t.kind.IsProper := by
  induction h with grind

theorem ReadsLocal.isProper {n : LocalName} (h : ReadsLocal n ts) : ∀ t ∈ ts, t.kind.IsProper := by
  cases h with grind

theorem ReadsLocals.isProper {ns : List LocalName} (h : ReadsLocals ns ts) :
    ∀ t ∈ ts, t.kind.IsProper := by
  induction h with grind [ReadsLocal.isProper]

theorem ReadsParams.isProper {v : Option Nat} (h : ReadsParams is v ts) :
    ∀ t ∈ ts, t.kind.IsProper := by
  induction h with grind

theorem ReadsFuncName.isProper {n : FuncName} (h : ReadsFuncName n ts) :
    ∀ t ∈ ts, t.kind.IsProper := by
  cases h with grind [ReadsNames.isProper]

theorem Reads.isProper {p : Phrase} (h : Reads p ts) : ∀ t ∈ ts, t.kind.IsProper := by
  induction h with
  | noExprs | noFields | noStmts => simp
  | oneExpr _ ih | bareArg _ _ ih | positional _ ih | oneField _ ih | callStmt _ ih => exact ih
  | _ =>
    simp only [forall_mem_append, forall_mem_singleton]
    grind [ReadsNames.isProper, ReadsLocals.isProper, ReadsParams.isProper, ReadsFuncName.isProper]

/-! ## Code tokens -/

/-- The tokens of a source that are part of the program: neither comments, nor the interpreter line,
nor the end token. -/
def Lexer.codeTokens (source : Bytes) : List Token :=
  (tokens source).filter fun t => t.kind.isCode && t.kind != .eof

/-- The vocabulary of the lexer: names are names of Lua, and literals are free. -/
def Word.Named : Word → Prop
  | .name text => IsName text
  | _ => True

theorem Token.text_eq_lexeme (h : t.kind.IsProper) : t.text = t.lexeme := by
  unfold text
  split
  · rename_i hk
    rw [hk] at h
    exact h.elim
  · rfl

theorem Lexeme.lawful (h : Lexeme t.kind t.lexeme) : t.Lawful Word.Named where
  fixed hf := by
    have ht : t.text = t.lexeme := Token.text_eq_lexeme (by
      cases hk : t.kind <;> simp_all [TokenKind.IsFixed, TokenKind.IsProper])
    cases hk : t.kind with
    | keyword word => rw [hk] at h; exact ht.trans h
    | sign s => rw [hk] at h; exact ht.trans h
    | _ => rw [hk] at hf; exact hf.elim
  name hk := by
    rw [hk] at h
    show IsName t.text
    rw [Token.text_eq_lexeme (Token.isProper_of_name hk)]
    exact h
  number _ := trivial
  string _ _ := trivial

theorem Lexer.ahead_ofTokens (source : Bytes) :
    (Stream.ofTokens (tokens source)).ahead = codeTokens source := by
  obtain ⟨init, e, hts, he, hinit⟩ := (tiles_tokens source).ends
  have hcode : ∀ t ∈ init, t.kind.isCode = (t.kind.isCode && t.kind != .eof) := by
    intro t ht
    have hlexeme := (hinit t ht).1
    cases hk : t.kind <;> simp_all [Lexeme]
  rw [codeTokens, hts, filter_append, filter_cons_of_neg (by simp [he]), filter_nil, append_nil,
    ← filter_congr hcode]
  simp [Stream.ofTokens, Stream.ahead]

theorem Lexer.lawful_of_mem {source : Bytes} (ht : t ∈ codeTokens source) :
    t.Lawful Word.Named := by
  obtain ⟨init, e, hts, he, hinit⟩ := (tiles_tokens source).ends
  obtain ⟨hmem, hcode⟩ := mem_filter.mp ht
  rw [hts, mem_append, mem_singleton] at hmem
  rcases hmem with hmem | rfl
  · exact (hinit t hmem).1.lawful
  · simp [he] at hcode

theorem Lexer.stream_lawful (source : Bytes) :
    (Stream.ofTokens (tokens source)).Lawful Word.Named := by
  obtain ⟨init, e, hts, he, -⟩ := (tiles_tokens source).ends
  refine ⟨by simpa [Stream.ofTokens, hts] using he, ?_, ?_⟩ <;> rw [ahead_ofTokens] <;> intro t ht
  · simpa using (mem_filter.mp ht).2
  · exact lawful_of_mem ht

/-! ## Chunks -/

namespace Parser

theorem chunkBlock_runs (m : Passage) (fuel : Nat) :
    Twin m (fuel - 8) Any [] (chunkBlock fuel) (chunkBlock fuel) fun b b' ts next =>
      (Phrase.Read m.lawful (.stmts b.stmts) ts ∧ next.kind = .eof) ∧ b' = b.relocate m.r := by
  unfold chunkBlock
  refine (sound m fuel).block.bind (by simp) ?_
  rintro _ _ ts _ ⟨⟨ss, rfl, hr⟩, rfl⟩
  refine .peekKind fun kind => ?_
  split
  · rename_i heof
    exact .stop fun _ hk => ⟨⟨hr, hk.trans heof⟩, rfl⟩
  · exact .unexpected _

theorem chunkBlock_yields {lawful : Word → Prop} {fuel : Nat} {s s' : Stream} {b : Block}
    (hs : s.Lawful lawful) (h : chunkBlock fuel s = .ok (b, s')) :
    Phrase.Read lawful (.stmts b.stmts) s.ahead ∧ s.Consumed s' s.ahead ∧ s'.ahead = [] := by
  have hagree := chunkBlock_runs (.stay lawful) fuel s s hs (s.follows_stay lawful) trivial
  rw [h] at hagree
  cases hagree with
  | ok hts _ hread =>
    obtain ⟨⟨hr, heof⟩, -⟩ := hread
    -- The end token comes next only when nothing else is ahead.
    have hahead : s'.ahead = [] := by
      rw [Stream.peek_eq] at heof
      cases hcons : s'.ahead with
      | nil => rfl
      | cons t rest =>
        refine absurd ?_ ((hs.of_consumed hts).code t (hcons ▸ mem_cons_self ..)).2
        simpa [hcons] using heof
    have hall := hts.ahead
    rw [hahead, append_nil] at hall
    rw [hall]
    exact ⟨hr, hts, hahead⟩

/-- There is fuel enough for all tokens, so that a source is refused only for a fault of its own. -/
theorem chunkBlock_ne_exhausted {source : Bytes} {e : ParseError}
    (h : chunkBlock (fuelFor (tokens source).length) (.ofTokens (tokens source)) = .error e) :
    e.fault ≠ .exhausted := by
  intro he
  have hagree := chunkBlock_runs (.stay Word.Named) (fuelFor (tokens source).length) _ _
    (stream_lawful source) (Stream.follows_stay Word.Named _) trivial
  rw [h] at hagree
  cases hagree with
  | error hspent =>
    have hcode : (codeTokens source).length ≤ (tokens source).length := length_filter_le ..
    have hspent := hspent he
    rw [Spent, ahead_ofTokens, fuelFor, length_nil] at hspent
    omega

/-- The fuel is enough for every source. -/
theorem parse_ne_exhausted {source : Bytes} {e : ParseError} (h : parse source = .error e) :
    e.fault ≠ .exhausted := by
  unfold parse at h
  cases hrun : chunkBlock (fuelFor (tokens source).length) (.ofTokens (tokens source)) with
  | ok r =>
    simp only [hrun] at h
    cases h
  | error e' =>
    simp only [hrun] at h
    cases h
    exact chunkBlock_ne_exhausted hrun

/-- A source is parsed by reading a block from its tokens. What the stream has collected by then
goes into the chunk. -/
theorem parse_eq_ok {source : Bytes} {chunk : Chunk} : parse source = .ok chunk ↔
    ∃ s, chunkBlock (fuelFor (tokens source).length) (.ofTokens (tokens source)) =
        .ok (chunk.block, s) ∧
      chunk = ⟨chunk.block, s.look.comments.reverse, s.look.tokens.reverse, s.peek.pos⟩ := by
  unfold parse
  cases hrun : chunkBlock (fuelFor (tokens source).length) (.ofTokens (tokens source)) with
  | error e =>
    simp only [hrun]
    constructor
    · intro h
      cases h
    · rintro ⟨_, h, -⟩
      cases h
  | ok r =>
    simp only [hrun]
    constructor
    · intro h
      cases h
      exact ⟨r.2, rfl, by rw [Stream.peek_look]⟩
    · rintro ⟨s, h, hchunk⟩
      cases h
      rw [hchunk, ← s.peek_look]
      rfl

theorem comments_concat {last : Option Nat} (ht : t.kind = .eof) (ts : List Token) :
    comments last (ts ++ [t]) = comments last ts := by
  induction ts generalizing last with
  | nil => simp [comments, ht]
  | cons u ts ih =>
    rw [cons_append, comments, comments]
    split <;> simp [ih]

theorem ranges_eq {ts : List Token} (h : ∀ t ∈ ts, t.kind.IsProper) :
    ranges ts = ts.map fun t => ⟨t.pos, t.stop⟩ := by
  induction ts with
  | nil => rfl
  | cons t ts ih =>
    rw [forall_mem_cons] at h
    rw [ranges]
    split
    · rename_i hk
      rw [hk] at h
      exact h.1.elim
    · rw [ih h.2, map_cons]

/-- All that a successful parse tells about a chunk. -/
theorem chunk_of_parse {source : Bytes} {chunk : Chunk} (h : parse source = .ok chunk) :
    Phrase.Read Word.Named (.stmts chunk.block.stmts) (codeTokens source) ∧
      (chunk.tokens = (codeTokens source).map fun t => ⟨t.pos, t.stop⟩) ∧
      chunk.comments = comments none (tokens source) ∧
      chunk.size = source.length := by
  obtain ⟨s, hrun, hchunk⟩ := parse_eq_ok.mp h
  obtain ⟨hread, hts, hahead⟩ := chunkBlock_yields (stream_lawful source) hrun
  rw [ahead_ofTokens] at hread
  -- After a look at the end token nothing is left to collect.
  have hlook := hts.trans (.look s)
  have hseen : s.look.seen = none := by
    have := s.ahead_look.trans hahead
    simp [Stream.ahead] at this
    exact this.1
  have hunread := Stream.unread_look hseen
  rw [hchunk]
  refine ⟨hread, ?_, ?_, ?_⟩
  · have htokens := hlook.tokens
    rw [Stream.allTokens, s.ahead_look, hahead, Stream.allTokens, ahead_ofTokens,
      ranges_eq hread.reads.isProper] at htokens
    simpa [ranges, Stream.ofTokens] using htokens
  · have hcomments := hlook.comments
    obtain ⟨init, e, hinit, he, -⟩ := (tiles_tokens source).ends
    rw [hinit, comments_concat he]
    simpa [Stream.allComments, hseen, hunread, comments, Stream.ofTokens, hinit] using hcomments
  · obtain ⟨e, hlast, hpos⟩ := (tiles_tokens source).last
    rw [s.peek_eq, hahead, headD_nil, hts.eof, Stream.ofTokens, hlast, Option.getD_some, hpos,
      Glyph.flatMap_bytes_decode]
    exact Nat.zero_add _

theorem not_error_of_parse {source : Bytes} {chunk : Chunk} (h : parse source = .ok chunk) :
    ∀ t ∈ tokens source, ∀ cause, t.kind ≠ .error cause := by
  intro t ht cause hkind
  have hcode : t ∈ codeTokens source :=
    mem_filter.mpr ⟨ht, by simp [hkind, TokenKind.isCode]⟩
  have hproper := (chunk_of_parse h).1.reads.isProper t hcode
  rw [hkind] at hproper
  exact hproper

/-- A chunk that is parsed from a source is well formed, and it is written by exactly the code
tokens of the source, among which there are no errors. -/
theorem parse_sound {source : Bytes} {chunk : Chunk} (h : parse source = .ok chunk) :
    (∀ t ∈ Lexer.tokens source, ¬ t.IsError) ∧
    WellFormed Word.Named (.stmts chunk.block.stmts) ∧
    Reads (.stmts chunk.block.stmts) (Lexer.codeTokens source) := by
  obtain ⟨hread, -⟩ := chunk_of_parse h
  refine ⟨?_, hread.wellFormed, hread.reads⟩
  rintro t ht ⟨cause, hc⟩
  exact not_error_of_parse h t ht cause hc

theorem parse_sound_local :
    ∃ chunk, parse "local x <const> = -y ^ 2 .. z; return f\x7bx\x7d" = .ok chunk ∧
      chunk.block.stmts.length = 2 ∧
      (∀ t ∈ Lexer.tokens "local x <const> = -y ^ 2 .. z; return f\x7bx\x7d", ¬ t.IsError) ∧
      WellFormed Word.Named (.stmts chunk.block.stmts) ∧
      Reads (.stmts chunk.block.stmts)
        (Lexer.codeTokens "local x <const> = -y ^ 2 .. z; return f\x7bx\x7d") := by
  exact exists_ok_and ⟨_, rfl, rfl⟩ fun _ hparse _ => parse_sound hparse

end Parser

end LuaLint
