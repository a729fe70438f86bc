import LuaLint.Token.Lexer
import LuaLint.Proofs.Text.Decoding

/-!
# Lexemes and scanners

What the kind of a token tells about its text, and what taking glyphs does to a scanner.
-/

namespace LuaLint

open List Glyph Ascii

variable {word rest : Bytes} {code : Nat} {gs : List Glyph} {b : UInt8} {s : Scanner} {g : Glyph}

/-! ## Texts that fit a kind -/

/-- A name: a letter or underscore, then letters, digits and underscores, but no reserved word. -/
structure IsName (text : Bytes) : Prop where
  start : ∃ b rest, text = b :: rest ∧ Ascii.isNameStart b.toNat
  chars : ∀ b ∈ text, Ascii.isName b.toNat
  notReserved : Keyword.ofName? text = none

theorem Keyword.spelling_of_ofName? {name : Bytes} {word : Keyword}
    (h : Keyword.ofName? name = some word) : name = Bytes.ofString word.spelling := by
  have := find?_some h
  exact (beq_iff_eq.mp this).symm

def Literal.opening (level : Nat) : Bytes := 91 :: (List.replicate level 61 ++ [91])

def Literal.closing (level : Nat) : Bytes := 93 :: (List.replicate level 61 ++ [93])

namespace Lexer

/-- One step within a quoted string, unless the string ends there. -/
def stringStep (quote : Nat) : StringMode → Nat → Option StringMode
  | .escaped, code => some (if code = 122 then .skipping else .plain)
  | mode, code =>
    if mode = .skipping && Blank.isLuaSpace code then some .skipping
    else if code = quote || code = 10 then none
    else some (if code = 92 then .escaped else .plain)

theorem stringEnd_cons (quote : Nat) (mode : StringMode) (g : Glyph) :
    (stringStep quote mode g.code = none ∧ mode ≠ .escaped ∧
      ∀ gs, stringEnd quote mode (g :: gs) = (1, g.code == quote)) ∨
    ∃ mode', stringStep quote mode g.code = some mode' ∧ ∀ gs, stringEnd quote mode (g :: gs) =
      ((stringEnd quote mode' gs).1 + 1, (stringEnd quote mode' gs).2) := by
  cases mode <;> simp only [stringStep, stringEnd] <;> grind

end Lexer

/-- The text of a comment: two dashes with long brackets, or with the rest of a line that does not
begin with a long bracket. -/
inductive IsComment : Bytes → Prop where
  | long {level : Nat} {body : Bytes} :
      IsComment (45 :: 45 :: (Literal.opening level ++ body ++ Literal.closing level))
  | line {body : Bytes} : 10 ∉ body → (∀ level rest, body ≠ Literal.opening level ++ rest) →
      IsComment (45 :: 45 :: body)

/-- The text of a quoted string, which goes up to the quote that closes it. -/
inductive IsQuoted : Bytes → Prop where
  | mk {quote : UInt8} {gs : List Glyph} : quote = 34 ∨ quote = 39 →
      Lexer.stringEnd quote.toNat .plain gs = (gs.length, true) →
      IsQuoted (quote :: gs.flatMap Glyph.bytes)

/-- What the kind of a token tells about its text. Reserved words and signs have one spelling; the
end of the source is no lexeme. -/
def Lexeme : TokenKind → Bytes → Prop
  | .eof, _ => False
  | .name, text => IsName text
  | .comment, text => IsComment text
  | .string, text => IsQuoted text
  | .keyword word, text => text = Bytes.ofString word.spelling
  | .sign s, text => text = Bytes.ofString s.spelling
  | _, _ => True

namespace Lexer

theorem isNameStart_lt (h : isNameStart code = true) : code < 128 := by
  simp only [isNameStart, Bool.or_eq_true, beq_iff_eq, Bool.and_eq_true,
    decide_eq_true_eq] at h
  omega

theorem isName_lt (h : isName code = true) : code < 128 := by
  simp only [isName, isDigit, Bool.or_eq_true, Bool.and_eq_true, decide_eq_true_eq] at h
  rcases h with h | h
  · exact isNameStart_lt h
  · omega

theorem flatMap_bytes_of_codes_lt (h : ∀ g ∈ gs, g.code < 128) :
    gs.flatMap bytes = gs.map fun g => UInt8.ofNat g.code := by
  induction gs with
  | nil => rfl
  | cons g gs ih =>
    rw [forall_mem_cons] at h
    rw [flatMap_cons, map_cons, bytes_of_code_lt h.1, ih h.2]
    rfl

theorem lexeme_ofName (hb : isNameStart b.toNat) (hrest : ∀ c ∈ rest, isName c.toNat) :
    Lexeme (.ofName (b :: rest)) (b :: rest) := by
  unfold TokenKind.ofName
  split
  · rename_i word hword
    exact Keyword.spelling_of_ofName? hword
  · rename_i hword
    refine ⟨⟨b, rest, rfl, hb⟩, ?_, hword⟩
    rw [forall_mem_cons]
    exact ⟨by simp [isName, hb], hrest⟩

end Lexer

theorem IsName.ne_nil (h : IsName word) : word ≠ [] := by
  obtain ⟨b, rest, rfl, -⟩ := h.start
  exact cons_ne_nil _ _

theorem IsName.ascii (h : IsName word) : ∀ b ∈ word, b.toNat < 128 :=
  fun b hb => Lexer.isName_lt (h.chars b hb)

namespace Lexer

theorem closing_lt (level : Nat) : ∀ b ∈ Literal.closing level, b.toNat < 128 := by
  simp only [Literal.closing, forall_mem_cons, forall_mem_append, mem_replicate]
  exact ⟨by decide, by rintro b ⟨-, rfl⟩; decide, by decide, by simp⟩

theorem longClose_eq (level : Nat) : longClose level = decode (Literal.closing level) := by
  have hbracket : ascii 93 = .scalar ']' := rfl
  have hequal : ascii 61 = .scalar '=' := rfl
  rw [decode_of_lt (closing_lt level)]
  simp [longClose, Literal.closing, hbracket, hequal]

theorem flatMap_longClose (level : Nat) :
    (longClose level).flatMap bytes = Literal.closing level := by
  rw [longClose_eq, flatMap_bytes_decode]

theorem cons_of_flatMap (h : gs.flatMap bytes = b :: rest) (hb : b.toNat < 128) :
    ∃ g gs', gs = g :: gs' ∧ g.code = b.toNat ∧ gs'.flatMap bytes = rest := by
  cases gs with
  | nil => cases h
  | cons g gs =>
    rw [flatMap_cons] at h
    have hcode : g.code < 128 := by
      rw [← Nat.not_le]
      intro hle
      obtain ⟨c, bytes, hbytes⟩ := exists_cons_of_ne_nil
        (ne_nil_of_length_pos g.size_pos : g.bytes ≠ [])
      have hc := le_of_mem_bytes hle c (hbytes ▸ mem_cons_self ..)
      rw [hbytes, cons_append] at h
      rw [(cons.inj h).1] at hc
      omega
    rw [bytes_of_code_lt hcode, singleton_append] at h
    obtain ⟨rfl, hrest⟩ := cons.inj h
    refine ⟨g, gs, rfl, ?_, hrest⟩
    rw [UInt8.toNat_ofNat', Nat.mod_eq_of_lt (by omega)]

theorem head_isName (h : IsName (gs.flatMap bytes)) :
    ∃ g ∈ gs.head?, isNameStart g.code = true := by
  obtain ⟨b, rest, hb, hstart⟩ := h.start
  obtain ⟨g, gs, rfl, hcode, -⟩ := cons_of_flatMap hb (isNameStart_lt hstart)
  exact ⟨g, rfl, hcode ▸ hstart⟩

end Lexer

/-! ## Taking glyphs -/

theorem Glyph.flatMap_bytes_ne_nil (h : gs ≠ []) : gs.flatMap bytes ≠ [] := by
  intro hnil
  obtain ⟨g, hg⟩ := exists_mem_of_ne_nil _ h
  have hbytes : g.bytes = [] := flatMap_eq_nil_iff.mp hnil g hg
  have hpos := g.size_pos
  rw [size, hbytes] at hpos
  exact Nat.lt_irrefl 0 hpos

namespace Scanner

theorem advance_eq {rest : List Glyph} (h : s.rest = g :: rest) : s.advance =
      { s with here := s.here.after g, taken := g :: s.taken, rest := rest, last := g.code } := by
  simp [advance, h]

theorem advance_eq_self (h : s.rest = []) : s.advance = s := by
  simp [advance, h]

theorem advanceBy_add (m n : Nat) (s : Scanner) :
    (s.advanceBy m).advanceBy n = s.advanceBy (m + n) := by
  induction m generalizing s with
  | zero => rw [Nat.zero_add]; rfl
  | succ m ih => rw [Nat.succ_add]; exact ih s.advance

/-- All that taking glyphs changes. -/
theorem advanceBy_eq (n : Nat) (s : Scanner) :
    s.advanceBy n =
      { s with
        here := (s.rest.take n).foldl Mark.after s.here
        taken := (s.rest.take n).reverse ++ s.taken
        rest := s.rest.drop n
        last := ((s.rest.take n).getLast?.map Glyph.code).getD s.last } := by
  induction n generalizing s with
  | zero => rfl
  | succ n ih =>
    refine (ih s.advance).trans ?_
    cases h : s.rest with
    | nil => simp [advance_eq_self h, h]
    | cons g rest =>
      rw [advance_eq h]
      cases hlast : (rest.take n).getLast? <;> simp [getLast?_cons, hlast]

@[simp] theorem advanceBy_start (n : Nat) (s : Scanner) : (s.advanceBy n).start = s.start := by
  rw [advanceBy_eq]

@[simp] theorem advanceBy_rest (n : Nat) (s : Scanner) : (s.advanceBy n).rest = s.rest.drop n := by
  rw [advanceBy_eq]

@[simp] theorem advanceBy_taken (n : Nat) (s : Scanner) :
    (s.advanceBy n).taken = (s.rest.take n).reverse ++ s.taken := by
  rw [advanceBy_eq]

@[simp] theorem advanceBy_here (n : Nat) (s : Scanner) :
    (s.advanceBy n).here = (s.rest.take n).foldl Mark.after s.here := by
  rw [advanceBy_eq]

theorem last_advanceBy (n : Nat) (s : Scanner) :
    (s.advanceBy n).last = ((s.rest.take n).getLast?.map Glyph.code).getD s.last := by
  rw [advanceBy_eq]

theorem advanceBy_text (n : Nat) (s : Scanner) :
    (s.advanceBy n).text = s.text ++ (s.rest.take n).flatMap bytes := by
  simp [text]

variable {s : Scanner} {p : Nat → Bool} {gs tail : List Glyph}

theorem countWhile_append (h : s.rest = gs ++ tail) (hgs : ∀ g ∈ gs, p g.code = true)
    (htail : ∀ g ∈ tail.head?, p g.code = false) : s.countWhile p = gs.length := by
  have hstop : tail.takeWhile (fun g => p g.code) = [] := by
    cases tail with
    | nil => rfl
    | cons g tail => simp [htail g rfl]
  rw [countWhile, h, takeWhile_append_of_pos hgs, hstop, append_nil]

theorem acceptWhile_append (h : s.rest = gs ++ tail) (hgs : ∀ g ∈ gs, p g.code = true)
    (htail : ∀ g ∈ tail.head?, p g.code = false) : s.acceptWhile p = s.advanceBy gs.length := by
  rw [acceptWhile, countWhile_append h hgs htail]

theorem rest_advanceBy (h : s.rest = gs ++ tail) : (s.advanceBy gs.length).rest = tail := by
  rw [advanceBy_rest, h, drop_left]

/-- Behind the longest run stands no further glyph of it. -/
theorem head_drop_countWhile (p : Nat → Bool) (s : Scanner) :
    ∀ g ∈ (s.rest.drop (s.countWhile p)).head?, p g.code = false := by
  have hdrop : s.rest.drop (s.countWhile p) = s.rest.dropWhile fun g => p g.code := by
    have hsplit : (s.rest.takeWhile (fun g => p g.code) ++
        s.rest.dropWhile fun g => p g.code).drop (s.countWhile p) =
        s.rest.dropWhile fun g => p g.code := drop_left
    rwa [takeWhile_append_dropWhile] at hsplit
  intro g hg
  have hnot := head?_dropWhile_not (fun g : Glyph => p g.code) s.rest
  rw [hdrop, Option.mem_def] at hg
  rw [hg] at hnot
  exact hnot

theorem acceptIf_eq (p : Nat → Bool) (s : Scanner) : s.acceptIf p =
      if s.rest.head?.map (fun g => p g.code) = some true then some (s.advanceBy 1) else none := by
  unfold acceptIf peek?
  cases s.rest.head? with
  | none => rfl
  | some g => simp [advanceBy]

/-- A scanner that has taken nothing into the current token yet. -/
structure Fresh (s : Scanner) : Prop where
  taken : s.taken = []
  start : s.start = s.here

theorem fresh_ignore (s : Scanner) : s.ignore.Fresh := ⟨rfl, rfl⟩

theorem fresh_ofSource (source : Bytes) : (ofSource source).Fresh := ⟨rfl, rfl⟩

theorem take_countWhile (p : Nat → Bool) (s : Scanner) :
    s.rest.take (s.countWhile p) = s.rest.takeWhile fun g => p g.code := by
  rw [countWhile, ← prefix_iff_eq_take.mp (List.takeWhile_prefix _)]

theorem forall_mem_take_countWhile (p : Nat → Bool) (s : Scanner) :
    ∀ g ∈ s.rest.take (s.countWhile p), p g.code := by
  intro g hg
  rw [take_countWhile] at hg
  exact all_eq_true.mp all_takeWhile g hg

theorem Fresh.emit_eq (hs : s.Fresh) (kind : TokenKind) (n : Nat) :
    Lexer.emit kind (s.advanceBy n) =
      (⟨kind, (s.rest.take n).flatMap bytes, s.here⟩, (s.advanceBy n).ignore) := by
  simp [Lexer.emit, text, hs.taken, hs.start]

end Scanner

end LuaLint
