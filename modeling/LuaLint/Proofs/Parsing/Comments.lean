import LuaLint.Proofs.Lexing.Lines
import LuaLint.Proofs.Syntax.Nesting

/-!
# What a chunk keeps of its source

A chunk has the ranges of all code tokens and all comments, in source order. A comment knows whether
there is code before it on its line, and its content is what stands between its markers.

Main statements: `Comment.content_long`, `Parser.parse_keeps`.
-/

namespace LuaLint

open List Bytes Lexer Token

variable {c : Comment} {t : Token} {before after : List Token} {source : Bytes}

/-! ## The content of a comment -/

namespace Comment

open Literal (opening closing)

variable {pos level : Nat} {body rest : Bytes} {trailing : Bool}

theorem content_bracket (h : (rest.takeWhile (· == 61)).length = level) :
    content ⟨pos, 45 :: 45 :: 91 :: rest, trailing⟩ =
      if startsWith (91 :: rest) (opening level) && endsWith (91 :: rest) (closing level)
      then slice (91 :: rest) (opening level).length
        ((91 :: rest).length - (closing level).length)
      else 91 :: rest := by
  subst h
  rfl

/-- A long comment is read between its brackets. -/
theorem content_long :
    content ⟨pos, 45 :: 45 :: (opening level ++ body ++ closing level), trailing⟩ = body := by
  have hlevel : ((replicate level 61 ++ [91] ++ body ++ closing level).takeWhile
      (· == (61 : UInt8))).length = level := by
    simp
  have hstart : startsWith (opening level ++ body ++ closing level) (opening level) = true := by
    rw [startsWith, List.isPrefixOf_iff_prefix, append_assoc]
    exact prefix_append _ _
  have hend : endsWith (opening level ++ body ++ closing level) (closing level) = true := by
    rw [endsWith, isSuffixOf_iff_suffix]
    exact suffix_append _ _
  refine (content_bracket hlevel).trans
    ((if_pos (Bool.and_eq_true_iff.mpr ⟨hstart, hend⟩)).trans ?_)
  show slice (opening level ++ body ++ closing level) _
    ((opening level ++ body ++ closing level).length - _) = body
  rw [slice, length_append, Nat.add_sub_cancel, length_append, Nat.add_sub_cancel_left,
    append_assoc, drop_left, take_left]

/-- A line comment is read behind its marker. -/
theorem content_line (h : ∀ level rest, body ≠ opening level ++ rest) :
    content ⟨pos, 45 :: 45 :: body, trailing⟩ = body := by
  by_cases hbracket : ∃ rest, body = 91 :: rest
  · obtain ⟨rest, rfl⟩ := hbracket
    rw [content_bracket rfl, if_neg]
    intro hboth
    obtain ⟨more, hmore⟩ := List.isPrefixOf_iff_prefix.mp (Bool.and_eq_true_iff.mp hboth).1
    exact h _ more hmore.symm
  · have hafter : after? (45 :: 45 :: body) "--" = some body := rfl
    simp only [content, hafter, Option.getD_some]
    split
    · rename_i rest
      exact absurd ⟨rest, rfl⟩ hbracket
    · rfl

theorem content_of_isComment (h : IsComment c.text) :
    (∃ level body, c.text = 45 :: 45 :: (opening level ++ body ++ closing level) ∧
        c.content = body) ∨
      ∃ body, c.text = 45 :: 45 :: body ∧ 10 ∉ body ∧ (∀ level rest, body ≠ opening level ++ rest) ∧
        c.content = body := by
  obtain ⟨pos, text, trailing⟩ := c
  cases h with
  | @long level body => exact .inl ⟨level, body, rfl, content_long⟩
  | @line body hline hbracket => exact .inr ⟨body, rfl, hline, hbracket, content_line hbracket⟩

end Comment

/-! ## Comments among tokens -/

namespace Parser

def codeOf (ts : List Token) : List Token :=
  ts.filter fun t => t.kind ≠ .comment ∧ t.kind ≠ .hashBang ∧ t.kind ≠ .eof

theorem codeTokens_eq (source : Bytes) : codeTokens source = codeOf (tokens source) := by
  refine filter_congr fun t _ => ?_
  cases t.kind <;> simp [TokenKind.isCode]

theorem map_comments (last : Option Nat) (ts : List Token) :
    (comments last ts).map (fun c => (c.pos, c.text)) =
      (ts.filter fun t => t.kind = .comment).map fun t => (t.pos, t.text) := by
  induction ts generalizing last with
  | nil => rfl
  | cons t ts ih =>
    rw [comments]
    split
    · rename_i hkind
      simp [hkind, ih]
    · rename_i hkind
      simp [hkind, ih]
    · rename_i hkind
      simp [hkind, ih]
    · rename_i hcomment _ _
      rw [ih, filter_cons_of_neg (by simpa using hcomment)]

theorem exists_token_of_comment {last : Option Nat} {ts : List Token} (hc : c ∈ comments last ts) :
    ∃ t ∈ ts, t.kind = .comment ∧ c.span = ⟨t.pos, t.stop⟩ ∧ c.text = t.lexeme := by
  have hmem := mem_map_of_mem (f := fun c => (c.pos, c.text)) hc
  rw [map_comments] at hmem
  obtain ⟨t, ht, heq⟩ := mem_map.mp hmem
  obtain ⟨hpos, htext⟩ := Prod.mk.inj heq
  have hkind : t.kind = .comment := of_decide_eq_true (mem_filter.mp ht).2
  refine ⟨t, (mem_filter.mp ht).1, hkind, ?_, by rw [← htext, text, hkind]⟩
  rw [Comment.span, stop, hpos, htext]

/-- A comment is kept with what is known of the code before it. -/
theorem comments_append (ht : t.kind = .comment) (after : List Token)
    (h : ∀ u ∈ before, u.kind ≠ .eof ∧ ∀ cause, u.kind ≠ .error cause) :
    ∀ last : Option Nat, comments last (before ++ t :: after) = comments last before ++
      ⟨t.pos, t.text, ((codeOf before).getLast?.map Token.lastLine).or last = some t.mark.line⟩ ::
        comments (((codeOf before).getLast?.map Token.lastLine).or last) after := by
  induction before with
  | nil =>
    intro last
    simp only [nil_append, comments, ht]
    rfl
  | cons u before ih =>
    intro last
    rw [forall_mem_cons] at h
    rw [cons_append, comments, comments]
    split
    · rename_i hkind
      simp [hkind, ih h.2, codeOf]
    · rename_i hkind
      simp [hkind, ih h.2, codeOf]
    · rename_i hkind
      exact absurd hkind (h.1.2 _)
    · rename_i hcomment hbang _
      have hcode : codeOf (u :: before) = u :: codeOf before :=
        filter_cons_of_pos (decide_eq_true ⟨hcomment, hbang, h.1.1⟩)
      simp [ih h.2, hcode, getLast?_cons]

theorem line_eq (ht : t ∈ tokens source) :
    t.mark.line = newlines (source.take t.pos) + 1 := by
  obtain ⟨-, -, -, -, -, -, -, hmark⟩ := take_token ht
  rw [hmark]

theorem lastLine_eq (ht : t ∈ tokens source) (htext : t.text = t.lexeme) :
    t.lastLine = newlines (source.take t.stop) + 1 := by
  obtain ⟨-, -, -, -, -, -, hstop, -⟩ := take_token ht
  rw [extent, ← htext] at hstop
  rw [Token.lastLine, stop, hstop, line_eq ht, newlines, newlines, newlines,
    count_append]
  omega

theorem not_eof_of_append (h : tokens source = before ++ t :: after) :
    ∀ u ∈ before, u.kind ≠ .eof := by
  obtain ⟨init, e, htokens, -, hinit⟩ := (tiles_tokens source).ends
  have hsplit : init = before ++ (t :: after).dropLast := by
    rw [← dropLast_append_cons, ← h, htokens, dropLast_concat]
  intro u hu heof
  have hlexeme := (hinit u (hsplit ▸ mem_append_left _ hu)).1
  rwa [heof] at hlexeme

theorem find?_eq_some_iff {spans : List Span} (h : spans.Pairwise fun a b => a.start < b.start)
    {off : Int} {span : Span} : spans.find? (fun s => off ≤ s.start) = some span ↔
      span ∈ spans ∧ off ≤ span.start ∧ ∀ s ∈ spans, off ≤ s.start → span.start ≤ s.start := by
  rw [find?_eq_some_iff_append]
  constructor
  · rintro ⟨hoff, before, after, rfl, hbefore⟩
    refine ⟨by simp, of_decide_eq_true hoff, fun s hs hle => ?_⟩
    rcases mem_append.mp hs with hs | hs
    · simpa [hle] using hbefore s hs
    · rcases mem_cons.mp hs with rfl | hs
      · exact Nat.le_refl _
      · exact Nat.le_of_lt ((pairwise_cons.mp (pairwise_append.mp h).2.1).1 s hs)
  · rintro ⟨hmem, hoff, hfirst⟩
    obtain ⟨before, after, rfl⟩ := append_of_mem hmem
    refine ⟨decide_eq_true hoff, before, after, rfl, fun s hs => ?_⟩
    have hlt := (pairwise_append.mp h).2.2 s hs span (mem_cons_self ..)
    have hnot : ¬ off ≤ s.start := fun hle =>
      Nat.not_lt.mpr (hfirst s (mem_append_left _ hs) hle) hlt
    simpa using hnot

/-! ## Chunks -/

variable {source : Bytes} {chunk : Chunk}

theorem isComment_of_mem (hc : c ∈ comments none (tokens source)) : IsComment c.text := by
  obtain ⟨t, ht, hkind, -, htext⟩ := exists_token_of_comment hc
  have hlexeme := (tiles_tokens source).lexeme_of_mem ht (by rw [hkind]; decide)
  rw [hkind] at hlexeme
  exact htext ▸ hlexeme

theorem pairwise_tokens (h : parse source = .ok chunk) :
    (chunk.tokens.Pairwise fun a b => a.start < b.start ∧ a.stop ≤ b.start) ∧
      ∀ span ∈ chunk.tokens, span.start < span.stop := by
  obtain ⟨hordered, htokens, -⟩ := nested_of_parse h
  rw [htokens]
  refine ⟨pairwise_map.mpr (hordered.pairwise.imp_of_mem fun ht _ hle => ?_),
    forall_mem_map.mpr hordered.nonempty⟩
  exact ⟨Nat.lt_of_lt_of_le (hordered.nonempty _ ht) hle, hle⟩

theorem trailing_iff (h : parse source = .ok chunk)
    (htokens : tokens source = before ++ t :: after) :
    ((codeOf before).getLast?.map Token.lastLine).or none = some t.mark.line ↔
      ∃ u, (codeOf before).getLast? = some u ∧
        newlines (source.take u.stop) = newlines (source.take t.pos) := by
  have ht : t ∈ tokens source := htokens ▸ by simp
  rw [Option.or_none, Option.map_eq_some_iff, line_eq ht]
  refine exists_congr fun u => and_congr_right fun hlast => ?_
  have hcode := mem_of_getLast? hlast
  have hu : u ∈ tokens source := htokens ▸ mem_append_left _ (mem_filter.mp hcode).1
  have hproper := (chunk_of_parse h).1.reads.isProper u (by
    rw [codeTokens_eq]
    exact mem_filter.mpr ⟨hu, (mem_filter.mp hcode).2⟩)
  rw [lastLine_eq hu (text_eq_lexeme hproper), Nat.add_right_cancel_iff]

/-- A parsed chunk keeps every token and every comment of its source. -/
theorem parse_keeps (h : parse source = .ok chunk) :
    chunk.tokens = (codeOf (Lexer.tokens source)).map (fun t => ⟨t.pos, t.stop⟩) ∧
    ((chunk.tokens.Pairwise fun a b => a.start < b.start ∧ a.stop ≤ b.start) ∧
      ∀ span ∈ chunk.tokens, span.start < span.stop) ∧
    (chunk.comments.map (fun c => (c.pos, c.text)) =
      ((Lexer.tokens source).filter fun t => t.kind = .comment).map fun t => (t.pos, t.text)) ∧
    chunk.size = source.length ∧
    (∀ before t after, Lexer.tokens source = before ++ t :: after → t.kind = .comment →
      ∃ trailing, chunk.comments[(before.filter fun t => t.kind = .comment).length]? =
          some ⟨t.pos, t.text, trailing⟩ ∧
        (trailing = true ↔ ∃ u, (codeOf before).getLast? = some u ∧
          Bytes.newlines (source.take u.stop) = Bytes.newlines (source.take t.pos))) ∧
    (∀ c ∈ chunk.comments,
      (∃ level body, c.text = 45 :: 45 :: (Literal.opening level ++ body ++ Literal.closing level) ∧
        c.content = body) ∨
      ∃ body, c.text = 45 :: 45 :: body ∧ 10 ∉ body ∧
        (∀ level rest, body ≠ Literal.opening level ++ rest) ∧ c.content = body) ∧
    ∀ off : Int,
      (∀ span, chunk.tokenAfter? off = some span ↔ span ∈ chunk.tokens ∧ off ≤ span.start ∧
        ∀ other ∈ chunk.tokens, off ≤ other.start → span.start ≤ other.start) ∧
      (chunk.tokenAfter? off = none ↔ ∀ span ∈ chunk.tokens, span.start < off) := by
  obtain ⟨-, htokens, hcomments, hsize⟩ := chunk_of_parse h
  refine ⟨codeTokens_eq source ▸ htokens, pairwise_tokens h, ?_, ?_, ?_, ?_,
    fun off => ⟨fun span => ?_, ?_⟩⟩
  · rw [hcomments, map_comments]
  · exact hsize
  · intro before t after hsplit hkind
    -- A comment has as many comments before it as there are among the earlier tokens.
    have hlength : (before.filter fun t => t.kind = .comment).length =
        (comments none before).length := by
      simpa using (congrArg List.length (map_comments none before)).symm
    refine ⟨_, ?_, decide_eq_true_iff.trans (trailing_iff h hsplit)⟩
    have hbefore : ∀ u ∈ before, u.kind ≠ .eof ∧ ∀ cause, u.kind ≠ .error cause := fun u hu =>
      ⟨not_eof_of_append hsplit u hu,
        not_error_of_parse h u (hsplit ▸ List.mem_append_left _ hu)⟩
    rw [hcomments, hsplit, comments_append hkind after hbefore, hlength,
      List.getElem?_append_right (Nat.le_refl _), Nat.sub_self, List.getElem?_cons_zero]
  · exact fun c hc => Comment.content_of_isComment (isComment_of_mem (hcomments ▸ hc))
  · exact find?_eq_some_iff ((pairwise_tokens h).1.imp And.left)
  · simp [Chunk.tokenAfter?]

/-- A string over two lines with a comment behind it that ends on a third one, a comment behind
that, and one that only looks like a long one. -/
theorem parse_keeps_lines :
    ∃ chunk, parse ("s = [[a\n]] --[=[ b\n]=] -- c\n--[d]]" : Bytes) = .ok chunk ∧
      chunk.comments.map Comment.content = ([" b\n", " c", "[d]]"] : List Bytes) ∧
      chunk.comments.map Comment.trailing = [true, false, false] ∧
      chunk.tokens = [⟨0, 1⟩, ⟨2, 3⟩, ⟨4, 10⟩] ∧ chunk.size = 34 := by
  obtain ⟨chunk, hparse, hcontent, htrailing, htokens⟩ :
      ∃ chunk, parse ("s = [[a\n]] --[=[ b\n]=] -- c\n--[d]]" : Bytes) = .ok chunk ∧
        chunk.comments.map Comment.content = ([" b\n", " c", "[d]]"] : List Bytes) ∧
        chunk.comments.map Comment.trailing = [true, false, false] ∧
        chunk.tokens = [⟨0, 1⟩, ⟨2, 3⟩, ⟨4, 10⟩] := ⟨_, rfl, by decide, by decide, by decide⟩
  exact ⟨chunk, hparse, hcontent, htrailing, htokens, (parse_keeps hparse).2.2.2.1.trans
    (by decide)⟩

end Parser

end LuaLint
