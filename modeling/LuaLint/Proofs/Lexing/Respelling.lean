import Mathlib.Data.List.Sort
import LuaLint.Proofs.Lexing.Lossless
import LuaLint.Proofs.Lexing.Words

/-!
# Respelled sources

Some names of a source are replaced by another name. The lexer reads the same tokens as before, with
the new name in the place of the old ones, and each token is moved by as much as the names before it
have grown or shrunk.

The run over the source is replayed token by token over the new source. What follows a token may
begin with another name than before, but with a name still, and that is all a token can see of it.

Main statements: `Lexer.tokens_splice`.
-/

namespace LuaLint

open List Glyph Scanner Token Ascii Blank

variable {spans : List Span} {size p : Nat} {offset : Nat → Nat} {word source : Bytes}
  {front rest : List Glyph} {ts : List Token}

/-! ## Replacing spans -/

/-- A text with the bytes of some spans replaced by a word. The spans are those of the text as it is
given, in source order, so the last one is replaced first. -/
def Bytes.splice (word : Bytes) (spans : List Span) (text : Bytes) : Bytes :=
  spans.foldr (fun span text => text.take span.start ++ word ++ text.drop span.stop) text

theorem Bytes.splice_middle (word a b c d : Bytes) :
    (a ++ b ++ c ++ d).take (a.length + b.length) ++ word ++
      (a ++ b ++ c ++ d).drop (a.length + b.length + c.length) = a ++ b ++ word ++ d := by
  rw [← length_append, ← length_append, drop_left, append_assoc (a ++ b) c d, take_left]

/-- Where an offset goes when spans are replaced by words of a size: behind the bytes that stay and
the words that come before it. -/
def Span.shift (spans : List Span) (size off : Nat) : Nat :=
  (List.range off).countP (fun p : Nat => spans.all fun s => !s.covers p) +
    size * spans.countP fun s => s.start < off

/-- Offsets go where they should when spans, none of them empty, are replaced by words of a size:
outside of the spans byte by byte, and past the word at the end of a span. -/
structure Moves (spans : List Span) (size : Nat) (offset : Nat → Nat) : Prop where
  proper : ∀ s ∈ spans, s.start < s.stop
  start : offset 0 = 0
  outside : ∀ p, (∀ s ∈ spans, ¬ (s.start ≤ p ∧ p < s.stop)) → offset (p + 1) = offset p + 1
  inside : ∀ s ∈ spans, offset s.stop = offset s.start + size

theorem Moves.add (h : Moves spans size offset) :
    ∀ n, (∀ s ∈ spans, s.stop ≤ p ∨ p + n ≤ s.start) → offset (p + n) = offset p + n
  | 0, _ => rfl
  | n + 1, hfree => by
    have hprev := h.add n fun s hs => (hfree s hs).imp_right (by omega)
    have hlast := h.outside (p + n) fun s hs => by
      have := hfree s hs
      omega
    rw [← Nat.add_assoc, hlast, hprev, Nat.add_assoc]

theorem Moves.eq_self (h : Moves spans size offset) (hfree : ∀ s ∈ spans, p ≤ s.start) :
    offset p = p := by
  have hfront := h.add (p := 0) p fun s hs => .inr (by rw [Nat.zero_add]; exact hfree s hs)
  rwa [h.start, Nat.zero_add] at hfront

/-- None of the bytes of a span stay. -/
theorem countP_inside {s : Span} (hs : s ∈ spans) : ∀ n, s.start + n ≤ s.stop →
    (range (s.start + n)).countP (fun p : Nat => spans.all fun s => !s.covers p) =
      (range s.start).countP fun p : Nat => spans.all fun s => !s.covers p
  | 0, _ => rfl
  | n + 1, hle => by
    have hcovered : (spans.all fun t => !t.covers (s.start + n : Nat)) = false := by
      rw [all_eq_false]
      refine ⟨s, hs, ?_⟩
      rw [Bool.not_eq_true', Bool.eq_false_iff, not_not, Span.covers_iff]
      omega
    rw [← Nat.add_assoc, range_succ, countP_append, countP_inside hs n (by omega)]
    simp only [countP_singleton, hcovered]
    rfl

/-- One span more begins before the end of a span than before its start. -/
theorem countP_start_lt_stop {s : Span} (hs : s ∈ spans) (hne : ∀ s ∈ spans, s.start < s.stop)
    (hordered : spans.Pairwise fun s t => s.stop ≤ t.start) :
    spans.countP (fun t => decide (t.start < s.stop)) =
      spans.countP (fun t => decide (t.start < s.start)) + 1 := by
  have hlt := hne s hs
  obtain ⟨before, after, rfl⟩ := append_of_mem hs
  rw [pairwise_append, pairwise_cons] at hordered
  obtain ⟨-, ⟨hafter, -⟩, hbefore⟩ := hordered
  -- Earlier spans begin before this one, and later ones behind it.
  have hfirst : ∀ off, s.start ≤ off →
      before.countP (fun t => decide (t.start < off)) = before.length := by
    intro off hoff
    rw [countP_eq_length]
    intro t ht
    have := hne t (mem_append_left _ ht)
    have := hbefore t ht s (mem_cons_self ..)
    simp only [decide_eq_true_eq]
    omega
  have hlast : ∀ off, off ≤ s.stop → after.countP (fun t => decide (t.start < off)) = 0 := by
    intro off hoff
    rw [countP_eq_zero]
    intro t ht
    have := hafter t ht
    simp only [decide_eq_true_eq]
    omega
  simp only [countP_append, countP_cons, hfirst _ (Nat.le_refl _), hfirst _ (Nat.le_of_lt hlt),
    hlast _ (Nat.le_refl _), hlast _ (Nat.le_of_lt hlt)]
  simp [hlt]

theorem moves_shift (size : Nat) (hne : ∀ s ∈ spans, s.start < s.stop)
    (hordered : spans.Pairwise fun s t => s.stop ≤ t.start) :
    Moves spans size (Span.shift spans size) where
  proper := hne
  start := by simp [Span.shift]
  outside p hfree := by
    -- Outside of the spans the next byte stays, and no further span begins.
    have hstays : (spans.all fun s => !s.covers p) = true := by
      rw [all_eq_true]
      intro s hs
      rw [Bool.not_eq_true', Bool.eq_false_iff, Ne, Span.covers_iff]
      exact hfree s hs
    have hcount : spans.countP (fun s => decide (s.start < p + 1)) =
        spans.countP fun s => decide (s.start < p) := by
      refine countP_congr fun s hs => ?_
      have := hfree s hs
      have := hne s hs
      simp only [decide_eq_true_eq]
      omega
    rw [Span.shift, Span.shift, range_succ, countP_append, hcount]
    simp only [countP_singleton, hstays, if_true]
    omega
  inside s hs := by
    have hstop := countP_inside hs (s.stop - s.start)
    rw [Nat.add_sub_cancel' (Nat.le_of_lt (hne s hs))] at hstop
    rw [Span.shift, Span.shift, hstop (Nat.le_refl _), countP_start_lt_stop hs hne hordered,
      Nat.mul_add, Nat.mul_one]
    omega

/-- What becomes of a token when spans of the source are replaced by a word. -/
structure Token.Respelled (spans : List Span) (word : Bytes) (offset : Nat → Nat)
    (t t' : Token) : Prop where
  kind : t'.kind = t.kind
  lexeme : t'.lexeme = if t.extent ∈ spans then word else t.lexeme
  start : t'.extent.start = offset t.extent.start
  stop : t'.extent.stop = offset t.extent.stop

/-! ## Glyphs of a text -/

namespace Glyph

/-- Glyphs that are read back from their bytes. -/
def Decoded (gs : List Glyph) : Prop := decode (gs.flatMap bytes) = gs

theorem decode_around (hne : word ≠ []) (h : ∀ b ∈ word, b.toNat < 128) (before after : Bytes) :
    decode (before ++ (word ++ after)) = decode before ++ (decode word ++ decode after) := by
  have hhead : ∀ b ∈ (word ++ after).head?, b.toNat < 128 := by
    obtain ⟨b, rest, rfl⟩ := exists_cons_of_ne_nil hne
    simpa using h b (mem_cons_self ..)
  rw [decode_append before hhead, decode_append_of_last fun b hb => h b (mem_of_getLast? hb)]

theorem Decoded.parts (h : Decoded (front ++ rest)) : Decoded front ∧ Decoded rest := by
  unfold Decoded at h
  rw [flatMap_append] at h
  exact decode_split h rfl

theorem Decoded.around (hfront : Decoded front) (hrest : Decoded rest) (hne : word ≠ [])
    (hword : ∀ b ∈ word, b.toNat < 128) : Decoded (front ++ (decode word ++ rest)) := by
  unfold Decoded at *
  rw [flatMap_append, flatMap_append, flatMap_bytes_decode, decode_around hne hword, hfront, hrest]

end Glyph

namespace Lexer

/-! ## Names -/

variable {s : Scanner} {blanks rest : List Glyph}

theorem decode_isName (h : IsName word) :
    ∃ g gs, decode word = g :: gs ∧ isNameStart g.code = true ∧
      ∀ g' ∈ gs, isName g'.code = true := by
  obtain ⟨b, chars, rfl, hb⟩ := h.start
  have hchars := h.chars
  refine ⟨_, _, decode_of_isName hchars, ?_, ?_⟩
  · rwa [code_ascii]
  · exact forall_mem_map_ascii (forall_mem_cons.mp hchars).2

theorem alike_names {gs gs' : List Glyph} (h : ∃ g ∈ gs.head?, isNameStart g.code = true)
    (h' : ∃ g ∈ gs'.head?, isNameStart g.code = true) : Alike gs gs' := by
  have hlevel : ∀ gs : List Glyph, (∃ g ∈ gs.head?, isNameStart g.code = true) →
      longLevel? gs = none := by
    rintro gs ⟨g, hg, hstart⟩
    obtain ⟨rest, rfl⟩ := head?_eq_some_iff.mp (Option.mem_def.mp hg)
    rw [longLevel?_cons, if_neg, if_neg]
    · rintro hcode
      rw [hcode] at hstart
      cases hstart
    · rintro hcode
      rw [hcode] at hstart
      cases hstart
  exact ⟨.inr ⟨h, h'⟩, (hlevel gs' h').trans (hlevel gs h).symm⟩

theorem takes_name (hword : IsName word) (hrest : s.rest = blanks ++ decode word ++ rest)
    (hblanks : ∀ b ∈ blanks, isLuaSpace b.code = true)
    (hend : ∀ g ∈ rest.head?, isName g.code = false) :
    Takes s .name blanks (decode word) rest := by
  obtain ⟨g, gs, hdecode, hstart, hgs⟩ := decode_isName hword
  rw [hdecode] at hrest ⊢
  have hname : isName g.code = true := by simp [isName, hstart]
  have hspace : isLuaSpace g.code = false := by
    simp only [isNameStart, Bool.or_eq_true, beq_iff_eq, Bool.and_eq_true,
      decide_eq_true_eq] at hstart
    simp only [isLuaSpace, Bool.or_eq_false_iff, beq_eq_false_iff_ne, Bool.and_eq_false_iff,
      decide_eq_false_iff_not]
    omega
  refine takes_of_dispatch hrest hblanks hspace ?_
  rw [append_assoc, cons_append] at hrest
  -- The name ends where the given glyphs do.
  have hwhile : (begun s blanks).acceptWhile isName = (begun s blanks).advanceBy gs.length :=
    acceptWhile_append (rest_begun hrest) hgs hend
  have htext : ((begun s blanks).advanceBy gs.length).text = word := by
    have hrest₀ : (s.advanceBy blanks.length).ignore.rest = g :: gs ++ rest :=
      rest_advanceBy hrest
    rw [begun, advanceBy_add, Nat.add_comm, advanceBy_text, hrest₀, ← length_cons, take_left,
      ← hdecode, flatMap_bytes_decode]
    rfl
  rw [dispatch_eq_word hname, Lexer.word, not_isDigit_of_isNameStart hstart, hstart]
  simp only [Bool.false_eq_true, if_false, if_true]
  rw [hwhile, htext, TokenKind.ofName, hword.notReserved]

/-! ## Runs -/

theorem Scans.unique {us : List Token} (h : Scans s ts) (h' : Scans s us) : ts = us := by
  induction h generalizing us with
  | done hend =>
    cases h' with
    | done => rfl
    | token hne => exact absurd hend hne
  | token hne _ ih =>
    cases h' with
    | done hend => exact absurd hend hne
    | token _ htail => rw [ih htail]

theorem Scans.le_pos (h : Scans s ts) : ∀ t ∈ ts, s.here.pos ≤ t.pos := by
  have hnext : ∀ s : Scanner, s.here.pos ≤ (next s).1.pos := by
    intro s
    rcases takes_cases s with hblank | ⟨kind, blanks, gs, rest, -, -, -, -, -, htakes⟩
    · rw [(next_blank hblank).1, pos, Mark.pos_foldl_after]
      omega
    · rw [htakes.token, pos, Mark.pos_foldl_after]
      omega
  induction h with
  | done => simpa using hnext _
  | @token s ts hne _ ih =>
    refine forall_mem_cons.mpr ⟨hnext s, fun t ht => Nat.le_trans ?_ (ih t ht)⟩
    rcases takes_cases s with hblank | ⟨kind, blanks, gs, rest, -, -, -, -, -, htakes⟩
    · exact absurd (by rw [(next_blank hblank).1]) hne
    · rw [htakes.after.here, Mark.pos_foldl_after, Mark.pos_foldl_after]
      omega

/-! ## The run over the new source -/

def nameExtents (ts : List Token) : List Span :=
  (ts.filter fun t => t.kind = .name).map Token.extent

theorem sublist_nameExtents {pending : List Span} {t : Token}
    (h : pending.Sublist (nameExtents (t :: ts))) : pending.Sublist (nameExtents ts) ∨
      t.kind = .name ∧ ∃ later, pending = t.extent :: later ∧ later.Sublist (nameExtents ts) := by
  by_cases hname : t.kind = .name
  · have hcons : nameExtents (t :: ts) = t.extent :: nameExtents ts := by simp [nameExtents, hname]
    rw [hcons] at h
    cases h with
    | cons _ h => exact .inl h
    | cons_cons _ h => exact .inr ⟨hname, _, rfl, h⟩
  · have hcons : nameExtents (t :: ts) = nameExtents ts := by simp [nameExtents, hname]
    exact .inl (hcons ▸ h)

section Replay

variable {spans pending : List Span} {word : Bytes} {offset : Nat → Nat} {gs rest' : List Glyph}
  {ts : List Token} {kind : TokenKind}

/-- What a scanner has still to read, when the pending ones of some spans are replaced. -/
structure Respells (spans pending : List Span) (word : Bytes) (offset : Nat → Nat) (s : Scanner)
    (ts : List Token) (gs' : List Glyph) : Prop where
  alike : Alike s.rest gs'
  decoded : ∀ front, Glyph.Decoded (front ++ s.rest) → Glyph.Decoded (front ++ gs')
  splice : ∀ front : Bytes, front.length = s.here.pos →
    Bytes.splice word pending (front ++ s.rest.flatMap Glyph.bytes) =
      front ++ gs'.flatMap Glyph.bytes
  scans : ∀ s', s'.rest = gs' → s'.here.pos = offset s.here.pos →
    ∃ ts', Scans s' ts' ∧ List.Forall₂ (Token.Respelled spans word offset) ts ts'

theorem Takes.extent (h : Takes s kind blanks gs rest) :
    (next s).1.extent = ⟨s.here.pos + (blanks.flatMap bytes).length,
      s.here.pos + (blanks.flatMap bytes).length + (gs.flatMap bytes).length⟩ := by
  rw [h.token, Token.extent, pos, Mark.pos_foldl_after]

theorem Takes.here_after (h : Takes s kind blanks gs rest) :
    (next s).2.here.pos = (next s).1.extent.stop := by
  rw [h.after.here, h.extent, Mark.pos_foldl_after, Mark.pos_foldl_after]

variable (hmoves : Moves spans word.length offset)
include hmoves

theorem Respells.keep (hs : s.rest = blanks ++ gs ++ rest) (htakes : Takes s kind blanks gs rest)
    (hkind : kind ≠ .eof)
    (hother : ∀ s' rest', s'.rest = blanks ++ gs ++ rest' → Alike rest rest' →
      Takes s' kind blanks gs rest') (hkept : (next s).1.extent ∉ spans)
    (hfree : ∀ span ∈ spans, span.stop ≤ s.here.pos ∨ (next s).1.extent.stop ≤ span.start)
    (h : Respells spans pending word offset (next s).2 ts rest') :
    Respells spans pending word offset s ((next s).1 :: ts) (blanks ++ gs ++ rest') := by
  have hafter := htakes.after.rest
  refine ⟨?_, fun front hdecoded => ?_, fun front hfront => ?_, fun s' hs' hpos => ?_⟩
  -- What follows the token looks alike in both sources, and so does all from here on.
  · rw [hs, ← hafter]
    exact h.alike.append _
  · have := h.decoded (front ++ (blanks ++ gs)) (by
      rwa [hafter, append_assoc, ← hs])
    rwa [append_assoc] at this
  · have := h.splice (front ++ (blanks ++ gs).flatMap bytes) (by
      rw [htakes.here_after, htakes.extent, length_append, hfront, flatMap_append, length_append,
        Nat.add_assoc])
    rw [hafter, append_assoc, ← flatMap_append, ← hs] at this
    rw [this, append_assoc, ← flatMap_append]
  · have htakes' := hother s' rest' hs' (hafter ▸ h.alike)
    rw [htakes.extent] at hfree
    -- No span reaches the token, so both of its ends move by as much as the scanner.
    have hstart := hmoves.add (p := s.here.pos) (blanks.flatMap bytes).length
      fun span hspan => (hfree span hspan).imp_right fun hle => by
        simp only at hle
        omega
    have hstop := hmoves.add (p := s.here.pos)
      ((blanks.flatMap bytes).length + (gs.flatMap bytes).length)
      fun span hspan => (hfree span hspan).imp_right fun hle => by
        simp only at hle
        omega
    rw [← Nat.add_assoc] at hstop
    obtain ⟨ts', hts', hall⟩ := h.scans (next s').2 htakes'.after.rest (by
      rw [htakes'.here_after, htakes.here_after, htakes.extent, htakes'.extent, hstop, hpos,
        ← Nat.add_assoc])
    refine ⟨(next s').1 :: ts', .token (by rw [htakes'.token]; exact hkind) hts',
      .cons ⟨?_, ?_, ?_, ?_⟩ hall⟩
    · rw [htakes.token, htakes'.token]
    · rw [if_neg hkept, htakes.token, htakes'.token]
    · rw [htakes.extent, htakes'.extent, hstart, hpos]
    · rw [htakes.extent, htakes'.extent, hstop, hpos, ← Nat.add_assoc]

theorem Respells.replace (hword : IsName word) (hs : s.rest = blanks ++ gs ++ rest)
    (htakes : Takes s .name blanks gs rest)
    (hblanks : ∀ b ∈ blanks, isLuaSpace b.code = true)
    (hname : IsName (gs.flatMap bytes)) (hend : EndsName .name rest)
    (hreplaced : (next s).1.extent ∈ spans)
    (hfree : ∀ span ∈ spans, span.stop ≤ s.here.pos ∨ (next s).1.extent.start ≤ span.start)
    (h : Respells spans pending word offset (next s).2 ts rest') :
    Respells spans ((next s).1.extent :: pending) word offset s ((next s).1 :: ts)
      (blanks ++ decode word ++ rest') := by
  have hafter := htakes.after.rest
  -- The next token cannot continue the old name, hence not the new one.
  have hend' : ∀ g ∈ rest'.head?, isName g.code = false := by
    intro g hg
    rcases (hafter ▸ h.alike : Alike rest rest').next with hhead | ⟨⟨g₀, hg₀, hstart⟩, -⟩
    · exact hend rfl g (hhead ▸ hg)
    · have := hend rfl g₀ hg₀
      simp [isName, hstart] at this
  have hgs : gs ≠ [] := by
    rintro rfl
    exact hname.ne_nil rfl
  refine ⟨?_, fun front hdecoded => ?_, fun front hfront => ?_, fun s' hs' hpos => ?_⟩
  · -- A name stands where a name stood.
    obtain ⟨g, gs', hdecode, hstart, -⟩ := decode_isName hword
    obtain ⟨g₀, hg₀, hstart₀⟩ := head_isName hname
    rw [hs, append_assoc, append_assoc]
    refine (alike_names ⟨g₀, ?_, hstart₀⟩ ⟨g, ?_, hstart⟩).append blanks
    · rw [head?_append, Option.mem_def.mp hg₀]
      rfl
    · rw [hdecode]
      rfl
  · rw [hs, append_assoc, ← append_assoc] at hdecoded
    obtain ⟨hfront, hbehind⟩ := hdecoded.parts
    have hrest := hbehind.parts.2
    have hrest' := h.decoded [] (by rwa [nil_append, hafter])
    rw [append_assoc, ← append_assoc]
    exact hfront.around hrest' hword.ne_nil hword.ascii
  -- Later spans are replaced first, so that this one is still where it was.
  · have hlater := h.splice (front ++ (blanks ++ gs).flatMap bytes) (by
      rw [htakes.here_after, htakes.extent, length_append, hfront, flatMap_append, length_append,
        Nat.add_assoc])
    rw [hafter, append_assoc, ← flatMap_append, ← hs] at hlater
    have hunfold : Bytes.splice word ((next s).1.extent :: pending)
        (front ++ s.rest.flatMap bytes) =
        (Bytes.splice word pending (front ++ s.rest.flatMap bytes)).take
          (next s).1.extent.start ++ word ++
        (Bytes.splice word pending (front ++ s.rest.flatMap bytes)).drop
          (next s).1.extent.stop := rfl
    rw [hunfold, hlater, htakes.extent, ← hfront]
    simp only [flatMap_append, flatMap_bytes_decode, ← append_assoc]
    exact Bytes.splice_middle word front _ _ _
  · rw [htakes.extent] at hfree hreplaced
    have htakes' := takes_name hword hs' hblanks hend'
    -- The name begins where it would, and ends behind the new word.
    have hstart := hmoves.add (p := s.here.pos) (blanks.flatMap bytes).length hfree
    have hstop := hmoves.inside _ hreplaced
    simp only at hstop
    rw [hstart] at hstop
    obtain ⟨ts', hts', hall⟩ := h.scans (next s').2 htakes'.after.rest (by
      rw [htakes'.here_after, htakes.here_after, htakes.extent, htakes'.extent, hstop, hpos,
        flatMap_bytes_decode])
    refine ⟨(next s').1 :: ts', .token (by rw [htakes'.token]; intro h; cases h) hts',
      .cons ⟨?_, ?_, ?_, ?_⟩ hall⟩
    · rw [htakes.token, htakes'.token]
    · rw [htakes.extent, if_pos hreplaced, htakes'.token, flatMap_bytes_decode]
    · rw [htakes.extent, htakes'.extent, hstart, hpos]
    · rw [htakes.extent, htakes'.extent, hstop, hpos, flatMap_bytes_decode]

theorem Respells.done (hblank : ∀ g ∈ s.rest, isLuaSpace g.code = true)
    (hfree : ∀ span ∈ spans, span.stop ≤ s.here.pos) :
    Respells spans [] word offset s [(next s).1] s.rest := by
  refine ⟨⟨.inl rfl, rfl⟩, fun front h => h, fun front _ => rfl, fun s' hs' hpos => ?_⟩
  have hextent : ∀ s : Scanner, (∀ g ∈ s.rest, isLuaSpace g.code = true) →
      (next s).1.extent = ⟨s.here.pos + (s.rest.flatMap bytes).length,
        s.here.pos + (s.rest.flatMap bytes).length⟩ := by
    intro s hblank
    rw [(next_blank hblank).1, Token.extent, pos, Mark.pos_foldl_after]
    rfl
  have hblank' : ∀ g ∈ s'.rest, isLuaSpace g.code = true := hs' ▸ hblank
  have hmoved := hmoves.add (p := s.here.pos) (s.rest.flatMap bytes).length
    fun span hspan => .inl (hfree span hspan)
  refine ⟨[(next s').1], .done (by rw [(next_blank hblank').1]), .cons ⟨?_, ?_, ?_, ?_⟩ .nil⟩
  · rw [(next_blank hblank).1, (next_blank hblank').1]
  · rw [(next_blank hblank').1, if_neg, (next_blank hblank).1]
    -- The end token is empty, and no span is.
    intro hmem
    have hproper := hmoves.proper _ hmem
    rw [hextent s hblank] at hproper
    exact Nat.lt_irrefl _ hproper
  · rw [hextent s hblank, hextent s' hblank', hmoved, hpos, hs']
  · rw [hextent s hblank, hextent s' hblank', hmoved, hpos, hs']

theorem Scans.respells (hword : IsName word) (h : Scans s ts)
    (herror : ∀ t ∈ ts, ∀ cause, t.kind ≠ .error cause) {done : List Span}
    (hspans : spans = done ++ pending) (hdone : ∀ span ∈ done, span.stop ≤ s.here.pos)
    (hpending : pending.Sublist (nameExtents ts)) :
    ∃ gs', Respells spans pending word offset s ts gs' := by
  induction h generalizing done pending with
  | @done s hend =>
    -- The end token is no name, so that nothing is left to be replaced.
    obtain rfl : pending = [] := by
      have hnone : nameExtents [(next s).1] = [] := by simp [nameExtents, hend]
      rwa [hnone, sublist_nil] at hpending
    rw [append_nil] at hspans
    rcases takes_cases s with hblank | ⟨kind, blanks, gs, rest, -, hgs, -, hlex, -, htakes⟩
    · exact ⟨s.rest, .done hmoves hblank (hspans ▸ hdone)⟩
    · have hkind : kind = .eof := by rw [← hend, htakes.token]
      rw [hkind] at hlex
      exact hlex.elim
  | @token s ts hne htail ih =>
    rw [forall_mem_cons] at herror
    rcases takes_cases s with
      hblank | ⟨kind, blanks, gs, rest, hs, hgs, hblanks, hlex, hkind, htakes⟩
    · exact absurd (by rw [(next_blank hblank).1]) hne
    have hkind' : (next s).1.kind = kind := by rw [htakes.token]
    obtain ⟨hend, hother⟩ := hkind (hkind' ▸ herror.1)
    have hextent := htakes.extent
    have hpos : 0 < (gs.flatMap bytes).length :=
      length_pos_iff.mpr (flatMap_bytes_ne_nil hgs)
    -- The names of later tokens stand behind this one.
    have hahead : ∀ span ∈ nameExtents ts, (next s).1.extent.stop ≤ span.start := by
      intro span hspan
      obtain ⟨t, ht, rfl⟩ := mem_map.mp hspan
      rw [← htakes.here_after]
      exact htail.le_pos t (mem_of_mem_filter ht)
    have hstart : s.here.pos ≤ (next s).1.extent.start := by
      rw [hextent]
      exact Nat.le_add_right _ _
    have hstop : (next s).1.extent.start < (next s).1.extent.stop := by
      rw [hextent]
      exact Nat.lt_add_of_pos_right hpos
    rcases sublist_nameExtents hpending with hkeep | ⟨hname, later, rfl, hlater⟩
    · -- The token is none of those that are replaced.
      have hfree : ∀ span ∈ spans,
          span.stop ≤ s.here.pos ∨ (next s).1.extent.stop ≤ span.start := by
        rw [hspans, forall_mem_append]
        exact ⟨fun span h => .inl (hdone span h), fun span h => .inr (hahead span (hkeep.subset h))⟩
      have hkept : (next s).1.extent ∉ spans := fun hmem => by
        rcases hfree _ hmem with h | h <;> omega
      obtain ⟨rest', hrest'⟩ := ih herror.2 hspans (fun span hspan => by
        rw [htakes.here_after]
        have := hdone span hspan
        omega) hkeep
      exact ⟨_, hrest'.keep hmoves hs htakes (hkind' ▸ hne) hother hkept hfree⟩
    · -- The token is the first one that is replaced.
      obtain rfl : kind = .name := hkind' ▸ hname
      have hfree : ∀ span ∈ spans,
          span.stop ≤ s.here.pos ∨ (next s).1.extent.start ≤ span.start := by
        rw [hspans, forall_mem_append, forall_mem_cons]
        refine ⟨fun span h => .inl (hdone span h), .inr (Nat.le_refl _), fun span h => .inr ?_⟩
        have := hahead span (hlater.subset h)
        omega
      have hreplaced : (next s).1.extent ∈ spans := by
        rw [hspans]
        exact mem_append_right _ (mem_cons_self ..)
      have hspans' : spans = (done ++ [(next s).1.extent]) ++ later := by
        rw [hspans, append_assoc, singleton_append]
      obtain ⟨rest', hrest'⟩ := ih herror.2 hspans' (by
        rw [htakes.here_after, forall_mem_append, forall_mem_singleton]
        refine ⟨fun span h => ?_, Nat.le_refl _⟩
        have := hdone span h
        omega) hlater
      exact ⟨_, hrest'.replace hmoves hword hs htakes hblanks hlex hend hreplaced hfree⟩

end Replay

/-! ## Whole sources -/

/-- The scanner that has read the glyphs in front of a source and begins a token. -/
def resumed (source : Bytes) (front : List Glyph) : Scanner :=
  ((Scanner.ofSource source).advanceBy front.length).ignore

section Resumed

variable {source : Bytes} {front : List Glyph}

theorem rest_resumed (h : decode source = front ++ rest) : (resumed source front).rest = rest :=
  rest_advanceBy h

theorem here_resumed (h : decode source = front ++ rest) :
    (resumed source front).here.pos = (front.flatMap bytes).length := by
  have hrest : (ofSource source).rest = front ++ rest := h
  have hhere : (resumed source front).here = front.foldl Mark.after .first := by
    refine (advanceBy_here _ _).trans ?_
    rw [hrest, take_left]
    rfl
  rw [hhere, Mark.pos_foldl_after]
  exact Nat.zero_add _

variable {word : Bytes} {spans : List Span} {offset : Nat → Nat} {ts : List Token}

theorem le_start_of_scans (hsource : decode source = front ++ rest)
    (h : Scans (resumed source front) ts) (hspans : spans.Sublist (nameExtents ts)) :
    ∀ span ∈ spans, (front.flatMap bytes).length ≤ span.start := by
  intro span hspan
  obtain ⟨t, ht, rfl⟩ := mem_map.mp (hspans.subset hspan)
  have hpos := h.le_pos t (mem_of_mem_filter ht)
  rwa [here_resumed hsource] at hpos

theorem scans_splice (hword : IsName word) (hmoves : Moves spans word.length offset)
    (hsource : decode source = front ++ rest) (h : Scans (resumed source front) ts)
    (herror : ∀ t ∈ ts, ∀ cause, t.kind ≠ .error cause) (hspans : spans.Sublist (nameExtents ts)) :
    ∃ rest', decode (Bytes.splice word spans source) = front ++ rest' ∧ Alike rest rest' ∧
      ∃ ts', Scans (resumed (Bytes.splice word spans source) front) ts' ∧
        List.Forall₂ (Respelled spans word offset) ts ts' := by
  have hrest := rest_resumed hsource
  have hhere := here_resumed hsource
  obtain ⟨rest', hrespells⟩ := h.respells hmoves hword herror (nil_append spans).symm (by simp)
    hspans
  have hbytes : Bytes.splice word spans source = (front ++ rest').flatMap bytes := by
    have hsplice := hrespells.splice (front.flatMap bytes) hhere.symm
    rwa [hrest, ← flatMap_append, ← flatMap_append, ← hsource, flatMap_bytes_decode] at hsplice
  have hdecode : decode (Bytes.splice word spans source) = front ++ rest' := by
    rw [hbytes]
    refine hrespells.decoded front ?_
    rw [hrest, ← hsource, Decoded, flatMap_bytes_decode]
  refine ⟨rest', hdecode, hrest ▸ hrespells.alike, hrespells.scans _ (rest_resumed hdecode) ?_⟩
  rw [here_resumed hdecode, hhere, hmoves.eq_self (le_start_of_scans hsource h hspans)]

end Resumed

def bang : List Glyph := [Glyph.ascii 35, Glyph.ascii 33]

theorem acceptText_bang (s : Scanner) : s.acceptText (Bytes.ofString "#!") =
      if bang.isPrefixOf s.rest then some (s.advanceBy bang.length) else none :=
  rfl

theorem tokens_of_scans (hfirst : ¬ bang <+: decode source)
    (h : Scans (resumed source []) ts) : tokens source = ts := by
  have hnext : firstToken (.ofSource source) = next (.ofSource source) := by
    rw [firstToken, acceptText_bang, if_neg]
    rwa [List.isPrefixOf_iff_prefix]
  rw [tokens, run, hnext]
  exact (scans_collect _ _ (length_decode_le source)).unique h

theorem tokens_of_bang {line : List Glyph} (hsource : decode source = bang ++ line ++ rest)
    (hline : ∀ g ∈ line, (g.code != 10) = true) (hend : ∀ g ∈ rest.head?, (g.code != 10) = false)
    (h : Scans (resumed source (bang ++ line)) ts) :
    tokens source = ⟨.hashBang, (bang ++ line).flatMap bytes, .first⟩ :: ts := by
  have hrest : (ofSource source).rest = bang ++ (line ++ rest) := by
    rw [← append_assoc]
    exact hsource
  have haccept : (ofSource source).acceptText (Bytes.ofString "#!") =
      some ((ofSource source).advanceBy bang.length) := by
    rw [acceptText_bang, if_pos]
    rw [List.isPrefixOf_iff_prefix, hrest]
    exact prefix_append _ _
  have hwhile : ((ofSource source).advanceBy bang.length).acceptWhile (· != 10) =
      (ofSource source).advanceBy (bang ++ line).length := by
    rw [acceptWhile_append (rest_advanceBy hrest) hline hend, advanceBy_add, length_append]
  have hfirst : firstToken (.ofSource source) =
      (⟨.hashBang, (bang ++ line).flatMap bytes, .first⟩, resumed source (bang ++ line)) := by
    rw [firstToken, haccept]
    simp only
    rw [hwhile, (fresh_ofSource source).emit_eq, hrest, ← append_assoc, take_left]
    rfl
  -- The line takes a byte at least, so there is fuel left for the other tokens.
  have hlength := length_decode_le source
  rw [hsource, length_append, length_append] at hlength
  have hbang : bang.length = 2 := rfl
  obtain ⟨fuel, hfuel⟩ : ∃ fuel, source.length = fuel + 1 :=
    Nat.exists_eq_add_one.mpr (by omega)
  have hcollect := scans_collect fuel (resumed source (bang ++ line)) (by
    rw [rest_resumed hsource]
    omega)
  rw [tokens, run, hfirst, hfuel, ← hcollect.unique h]
  rfl

/-- What begins like an interpreter line is read without errors only as one. -/
theorem exists_error_of_bang (hrest : bang <+: s.rest) (h : Scans s ts) :
    ∃ t ∈ ts, ∃ cause, t.kind = .error cause := by
  have hmem : ∀ {s ts}, Scans s ts → (next s).1 ∈ ts := by
    intro s ts h
    cases h <;> exact mem_cons_self ..
  obtain ⟨rest, hs⟩ := hrest
  have hhash : Takes s (.sign .hash) [] [ascii 35] (ascii 33 :: rest) :=
    takes_of_dispatch hs.symm (by simp) rfl rfl
  have hmark : Takes (next s).2 (.error (.unexpectedCharacter 33)) [] [ascii 33] rest :=
    takes_of_dispatch hhash.after.rest (by simp) rfl rfl
  cases h with
  | done hend =>
    rw [hhash.token] at hend
    cases hend
  | token _ htail =>
    refine ⟨_, mem_cons_of_mem _ (hmem htail), .unexpectedCharacter 33, ?_⟩
    rw [hmark.token]

theorem map_kind_respelled {ts' : List Token}
    (h : List.Forall₂ (Respelled spans word offset) ts ts') :
    ts'.map kind = ts.map kind := by
  induction h with
  | nil => rfl
  | cons ht _ ih => rw [map_cons, map_cons, ht.kind, ih]

theorem pos_inj {t u : Token} (ht : t ∈ tokens source) (hu : u ∈ tokens source)
    (hpos : t.pos = u.pos) : t = u := by
  have hnodup : ((tokens source).map pos).Nodup :=
    pairwise_map.mpr ((tiles_tokens source).pos_lt.imp Nat.ne_of_lt)
  exact inj_on_of_nodup_map hnodup ht hu hpos

/-- When names of a source without lexical errors are replaced by another name, the tokens stay the
same but for those names. -/
theorem tokens_splice (hword : IsName word) (hmoves : Moves spans word.length offset)
    (herror : ∀ t ∈ tokens source, ∀ cause, t.kind ≠ .error cause)
    (hspans : spans.Sublist (nameExtents (tokens source))) :
    List.Forall₂ (Respelled spans word offset) (tokens source)
      (tokens (Bytes.splice word spans source)) := by
  have hscans : ∀ s : Scanner, Scans s (collect s.rest.length (next s)).1 := fun s =>
    scans_collect _ s (Nat.le_refl _)
  by_cases hbang : bang <+: decode source
  · -- The interpreter line ends with its line, and that is where it ends in the new source.
    obtain ⟨after, hafter⟩ := hbang
    have hline : ∀ g ∈ after.takeWhile (·.code != 10), (g.code != 10) = true :=
      all_eq_true.mp all_takeWhile
    have hend : ∀ g ∈ (after.dropWhile (·.code != 10)).head?, (g.code != 10) = false := by
      intro g hg
      have hnot := head?_dropWhile_not (fun g : Glyph => g.code != 10) after
      rw [Option.mem_def.mp hg] at hnot
      exact hnot
    rw [← takeWhile_append_dropWhile (p := fun g : Glyph => g.code != 10) (l := after),
      ← append_assoc] at hafter
    rw [tokens_of_bang hafter.symm hline hend (hscans _)] at herror hspans ⊢
    obtain ⟨rest', hdecode, halike, ts', hscans', hall⟩ := scans_splice hword hmoves hafter.symm
      (hscans _) (forall_mem_cons.mp herror).2 hspans
    -- A line feed looks like nothing else.
    have hend' : ∀ g ∈ rest'.head?, (g.code != 10) = false := by
      intro g hg
      have hsame := respects_line _ _ halike
      rw [Option.mem_def.mp hg, Option.map_some, eq_comm, Option.map_eq_some_iff] at hsame
      obtain ⟨g₀, hg₀, hcode⟩ := hsame
      exact hcode.symm.trans (hend g₀ hg₀)
    have hfree := le_start_of_scans hafter.symm (hscans _) hspans
    rw [tokens_of_bang hdecode hline hend' hscans']
    refine .cons ⟨rfl, ?_, hmoves.start.symm, ?_⟩ hall
    · rw [if_neg]
      intro hmem
      have hbefore := hfree _ hmem
      have hproper := hmoves.proper _ hmem
      simp only [Token.extent, pos, Mark.first] at hbefore hproper
      omega
    · have hstays := hmoves.eq_self hfree
      simpa only [Token.extent, pos, Mark.first, Nat.zero_add] using hstays.symm
  · rw [tokens_of_scans hbang (hscans _)] at herror hspans ⊢
    obtain ⟨rest', hdecode, -, ts', hscans', hall⟩ := scans_splice hword hmoves
      (nil_append (decode source)).symm (hscans _) herror hspans
    -- A new interpreter line would be an error further on, and there is none.
    have hbang' : ¬ bang <+: decode (Bytes.splice word spans source) := by
      intro hbang'
      obtain ⟨t', ht', cause, hcause⟩ := exists_error_of_bang hbang' hscans'
      have hmem := mem_map_of_mem (f := kind) ht'
      rw [map_kind_respelled hall, hcause] at hmem
      obtain ⟨t, ht, hkind⟩ := mem_map.mp hmem
      exact herror t ht cause hkind
    rwa [tokens_of_scans hbang' hscans']

end Lexer

end LuaLint
