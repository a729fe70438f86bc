import LuaLint.Proofs.Lexing.Words

/-!
# Strings that stand alone

A string literal is described by its bytes and read by its glyphs. The end of a quoted string is
found by an automaton that only looks for ASCII codes, so that it may be run over the bytes as well;
the end of a long string is where its closing bracket first occurs, in bytes as in glyphs.

Main statements: `Lexer.modeAfter_bytes`, `Lexer.dispatch_quoted`, `Lexer.dispatch_bracketed`.
-/

namespace LuaLint

open List Glyph Literal

variable {quote b : UInt8} {code level : Nat} {mode mode' : StringMode} {gs tail : List Glyph}
  {body value content : Bytes} {s : Scanner}

namespace Lexer

/-! ## The automaton of quoted strings -/

/-- Where the reading of a quoted string stands after some codes, unless it has ended. -/
def modeAfter (quote : Nat) (mode : StringMode) (codes : List Nat) : Option StringMode :=
  codes.foldlM (stringStep quote) mode

@[simp] theorem modeAfter_nil (quote : Nat) (mode : StringMode) :
    modeAfter quote mode [] = some mode := rfl

theorem modeAfter_cons {quote : Nat} {codes : List Nat}
    (h : stringStep quote mode code = some mode') :
    modeAfter quote mode (code :: codes) = modeAfter quote mode' codes := by
  simp [modeAfter, h]

theorem stringEnd_eq {quote : Nat} (hquote : Blank.isLuaSpace quote = false) {g : Glyph}
    (hg : g.code = quote) (h : modeAfter quote mode (gs.map Glyph.code) = some mode')
    (hmode' : mode' ≠ .escaped) :
    stringEnd quote mode (gs ++ g :: tail) = (gs.length + 1, true) := by
  induction gs generalizing mode with
  | nil =>
    simp only [map_nil, modeAfter_nil, Option.some.injEq] at h
    subst h
    cases mode with
    | escaped => exact absurd rfl hmode'
    | plain => simp [stringEnd, hg]
    | skipping => simp [stringEnd, hg, hquote]
  | cons x gs ih =>
    rw [map_cons] at h
    rcases stringEnd_cons quote mode x with ⟨hstep, -⟩ | ⟨next, hstep, hgo⟩
    · simp [modeAfter, hstep] at h
    · rw [modeAfter_cons hstep] at h
      rw [cons_append, hgo, ih h, length_cons]

theorem stringStep_of_le {quote : Nat} (hquote : quote < 128) (hcode : 128 ≤ code)
    (mode : StringMode) : stringStep quote mode code = some .plain := by
  have hspace : Blank.isLuaSpace code = false := by
    simp [Blank.isLuaSpace]
    omega
  have hne : code ≠ quote ∧ code ≠ 10 ∧ code ≠ 92 ∧ code ≠ 122 := by omega
  cases mode <;> simp [stringStep, hspace, hne]

theorem modeAfter_of_le {quote : Nat} (hquote : quote < 128) {high codes : List Nat}
    (hne : high ≠ []) (hhigh : ∀ code ∈ high, 128 ≤ code) (mode : StringMode) :
    modeAfter quote mode (high ++ codes) = modeAfter quote .plain codes := by
  induction high generalizing mode with
  | nil => exact absurd rfl hne
  | cons code high ih =>
    rw [forall_mem_cons] at hhigh
    rw [cons_append, modeAfter_cons (stringStep_of_le hquote hhigh.1 mode)]
    cases high with
    | nil => rfl
    | cons code' high => exact ih (cons_ne_nil _ _) hhigh.2 .plain

/-- The automaton may be run over bytes instead of glyphs. -/
theorem modeAfter_bytes {quote : Nat} (hquote : quote < 128) (mode : StringMode) (gs : List Glyph) :
    modeAfter quote mode (gs.map Glyph.code) =
      modeAfter quote mode ((gs.flatMap bytes).map UInt8.toNat) := by
  induction gs generalizing mode with
  | nil => rfl
  | cons g gs ih =>
    rw [flatMap_cons, map_cons, map_append]
    by_cases hg : g.code < 128
    · have hnat : (UInt8.ofNat g.code).toNat = g.code := by
        rw [UInt8.toNat_ofNat']
        omega
      rw [bytes_of_code_lt hg, map_singleton, hnat, singleton_append]
      cases hstep : stringStep quote mode g.code with
      | none => simp [modeAfter, hstep]
      | some next => rw [modeAfter_cons hstep, modeAfter_cons hstep, ih]
    · have hbytes : g.bytes.map UInt8.toNat ≠ [] := by
        have hsize : 0 < g.bytes.length := g.size_pos
        rw [Ne, map_eq_nil_iff]
        exact ne_nil_of_length_pos hsize
      have hhigh : ∀ code ∈ g.bytes.map UInt8.toNat, 128 ≤ code := by
        simpa using le_of_mem_bytes (Nat.le_of_not_lt hg)
      rw [modeAfter_of_le hquote hbytes hhigh, modeAfter_cons (stringStep_of_le hquote
        (Nat.le_of_not_lt hg) mode), ih]

/-! ## Quoted strings -/

/-- The state of the automaton after some ordinary bytes of a quoted string. -/
def bodyMode (quote : UInt8) (mode : StringMode) (body : Bytes) : Option StringMode :=
  modeAfter quote.toNat mode (body.map UInt8.toNat)

theorem bodyMode_cons (h : stringStep quote.toNat mode b.toNat = some mode') :
    bodyMode quote mode (b :: body) = bodyMode quote mode' body :=
  modeAfter_cons h

theorem bodyMode_plain {ds : Bytes} (h : ∀ b ∈ ds, b ≠ quote ∧ b ≠ 10 ∧ b ≠ 92) (body : Bytes) :
    bodyMode quote .plain (ds ++ body) = bodyMode quote .plain body := by
  induction ds with
  | nil => rfl
  | cons b ds ih =>
    rw [forall_mem_cons] at h
    obtain ⟨⟨hq, hlf, hbs⟩, h⟩ := h
    have hlf' : b.toNat ≠ 10 := fun h => hlf (UInt8.toNat_inj.mp h)
    have hbs' : b.toNat ≠ 92 := fun h => hbs (UInt8.toNat_inj.mp h)
    have hstep : stringStep quote.toNat .plain b.toNat = some .plain := by
      simp [stringStep, UInt8.toNat_inj, hq, hlf', hbs']
    rw [cons_append, bodyMode_cons hstep, ih h]

theorem bodyMode_skipping {spaces : Bytes} (h : ∀ b ∈ spaces, Blank.isLuaSpace b.toNat = true)
    (body : Bytes) : bodyMode quote .skipping (spaces ++ body) = bodyMode quote .skipping body := by
  induction spaces with
  | nil => rfl
  | cons b spaces ih =>
    rw [forall_mem_cons] at h
    have hstep : stringStep quote.toNat .skipping b.toNat = some .skipping := by
      simp [stringStep, h.1]
    rw [cons_append, bodyMode_cons hstep, ih h.2]

theorem bodyMode_backslash (hquote : quote = 34 ∨ quote = 39) (body : Bytes) :
    bodyMode quote .plain (92 :: body) = bodyMode quote .escaped body := by
  refine bodyMode_cons ?_
  rcases hquote with rfl | rfl <;> rfl

theorem bodyMode_escaped {l : UInt8} (hl : l ≠ 122) (body : Bytes) :
    bodyMode quote .escaped (l :: body) = bodyMode quote .plain body := by
  have hl' : l.toNat ≠ 122 := fun h => hl (UInt8.toNat_inj.mp h)
  exact bodyMode_cons (by simp [stringStep, hl'])

theorem inert_of_isHexDigit (hquote : quote = 34 ∨ quote = 39)
    (h : Ascii.isHexDigit b.toNat = true) : b ≠ quote ∧ b ≠ 10 ∧ b ≠ 92 := by
  refine ⟨?_, ?_, ?_⟩
  · rintro rfl
    rcases hquote with rfl | rfl <;> exact absurd h (by decide)
  · rintro rfl
    exact absurd h (by decide)
  · rintro rfl
    exact absurd h (by decide)

/-- The automaton runs through what is written between quotes. -/
theorem bodyMode_spells (hquote : quote = 34 ∨ quote = 39) (h : Spells quote body value) :
    ∃ mode, mode ≠ .escaped ∧ bodyMode quote .plain body = some mode := by
  have hinert := fun {b} => inert_of_isHexDigit hquote (b := b)
  induction h with
  | nil => exact ⟨.plain, by decide, rfl⟩
  | @plain b body value hlf hbs hq _ ih =>
    rwa [← singleton_append, bodyMode_plain (forall_mem_singleton.mpr ⟨hq, hlf, hbs⟩)]
  | @letter l b body value hl _ ih =>
    have hletter : ∀ p ∈ letterEscapes, p.1 ≠ 122 := by simp [letterEscapes]
    rwa [bodyMode_backslash hquote, bodyMode_escaped (hletter _ hl)]
  | @hex d e body value hd he _ ih =>
    have hdigits : ∀ b ∈ [d, e], b ≠ quote ∧ b ≠ 10 ∧ b ≠ 92 := by
      simp only [forall_mem_cons]
      exact ⟨hinert hd, hinert he, by simp⟩
    rwa [bodyMode_backslash hquote, bodyMode_escaped (by decide),
      show d :: e :: body = [d, e] ++ body from rfl, bodyMode_plain hdigits]
  | @decimal ds body value hne hds _ _ _ _ ih =>
    obtain ⟨d, ds, rfl⟩ := exists_cons_of_ne_nil hne
    rw [forall_mem_cons] at hds
    have hdigits : ∀ b ∈ ds, b ≠ quote ∧ b ≠ 10 ∧ b ≠ 92 := fun b hb =>
      hinert (isHexDigit_of_isDigit (hds.2 b hb))
    rwa [bodyMode_backslash hquote, cons_append,
      bodyMode_escaped (letterByte?_of_isDigit hds.1).2.1, bodyMode_plain hdigits]
  | @unicode ds body value c _ hds _ _ ih =>
    have hbraces : ∀ b ∈ 123 :: (ds ++ [125]), b ≠ quote ∧ b ≠ 10 ∧ b ≠ 92 := by
      simp only [forall_mem_cons, forall_mem_append]
      refine ⟨?_, fun b hb => hinert (hds b hb), ?_, by simp⟩
      · rcases hquote with rfl | rfl <;> decide
      · rcases hquote with rfl | rfl <;> decide
    have hsplit : 123 :: (ds ++ 125 :: body) = 123 :: (ds ++ [125]) ++ body := by simp
    rwa [bodyMode_backslash hquote, bodyMode_escaped (by decide), hsplit, bodyMode_plain hbraces]
  | @skip spaces body value hs hbody _ ih =>
    have hz : stringStep quote.toNat .escaped (122 : UInt8).toNat = some .skipping := rfl
    rw [bodyMode_backslash hquote, bodyMode_cons hz, bodyMode_skipping hs]
    -- What follows the white space is read as after an ordinary character.
    cases body with
    | nil => exact ⟨.skipping, by decide, rfl⟩
    | cons b body =>
      have hsame : stringStep quote.toNat .skipping b.toNat =
          stringStep quote.toNat .plain b.toNat := by
        simp [stringStep, hbody b rfl]
      simpa [bodyMode, modeAfter, hsame] using ih

/-- A quoted string is read up to its own closing quote. -/
theorem dispatch_quoted (hquote : quote = 34 ∨ quote = 39) (h : Spells quote body value)
    (hs : s.rest = decode (body ++ [quote]) ++ tail) :
    dispatch quote.toNat s = emit .string (s.advanceBy (decode (body ++ [quote])).length) := by
  have hlt : quote.toNat < 128 := by rcases hquote with rfl | rfl <;> decide
  have hspace : Blank.isLuaSpace quote.toNat = false := by rcases hquote with rfl | rfl <;> decide
  have hdispatch : dispatch quote.toNat s = string quote.toNat s := by
    rcases hquote with rfl | rfl <;> rfl
  have hdecode : decode (body ++ [quote]) = decode body ++ [ascii quote] := by
    rw [decode_append body (by simpa using hlt), decode_cons_of_lt hlt]
    rfl
  have hrest : s.rest = decode body ++ ascii quote :: tail := by
    rw [hs, hdecode, append_assoc]
    rfl
  obtain ⟨mode, hmode, hrun⟩ := bodyMode_spells hquote h
  rw [bodyMode, ← flatMap_bytes_decode body, ← modeAfter_bytes hlt] at hrun
  rw [hdispatch, string, hrest, stringEnd_eq hspace (code_ascii quote) hrun hmode, hdecode]
  simp

/-! ## Long strings -/

theorem longLevel?_eq (level : Nat) (tail : List Glyph) :
    longLevel? ((List.replicate level 61).map ascii ++ ascii 91 :: tail) =
      some level := by
  have hequal : ∀ g ∈ (replicate level 61).map ascii, (g.code == 61) = true := by
    simp
  have hcount : (((replicate level 61).map ascii ++ ascii 91 :: tail).takeWhile
      fun g => g.code == 61).length = level := by
    rw [takeWhile_append_of_pos hequal]
    simp
  have hdrop : ((replicate level 61).map ascii ++ ascii 91 :: tail).drop level =
      ascii 91 :: tail := by
    rw [drop_append_of_le_length (by simp), drop_of_length_le (by simp)]
    rfl
  rw [longLevel?, hcount, hdrop]
  rfl

theorem longEnd_eq {closing : List Glyph} (hne : closing ≠ [])
    (h : ∀ k < gs.length, ¬ closing <+: gs.drop k ++ (closing ++ tail)) :
    longEnd closing (gs ++ (closing ++ tail)) = (gs.length + closing.length, true) := by
  induction gs with
  | nil =>
    obtain ⟨g, rest, rfl⟩ := exists_cons_of_ne_nil hne
    have hfound : (g :: rest).isPrefixOf (g :: (rest ++ tail)) = true :=
      List.isPrefixOf_iff_prefix.mpr (prefix_append (g :: rest) tail)
    simp [longEnd, hfound]
  | cons g gs ih =>
    have hfirst : closing.isPrefixOf (g :: (gs ++ (closing ++ tail))) = false := by
      rw [Bool.eq_false_iff, Ne, List.isPrefixOf_iff_prefix]
      exact h 0 (Nat.succ_pos _)
    have hrest := ih fun k hk => h (k + 1) (Nat.succ_lt_succ hk)
    rw [cons_append, longEnd, hfirst, hrest, length_cons]
    simp
    omega

/-- Where the closing bracket occurs first among the bytes it occurs first among the glyphs. -/
theorem longClose_first
    (h : ∀ before after, content ++ closing level = before ++ closing level ++ after →
      before = content) (tail : List Glyph) :
    ∀ k < (decode content).length, ¬ longClose level <+:
      (decode content).drop k ++ (longClose level ++ tail) := by
  rintro k hk ⟨more, hmore⟩
  -- The bytes before and after the place.
  have hsplit : ((decode content).take k).flatMap bytes ++
      ((decode content).drop k).flatMap bytes = content := by
    rw [← flatMap_append, take_append_drop, flatMap_bytes_decode]
  have hdrop : ((decode content).drop k).flatMap bytes ≠ [] := by
    cases hcons : (decode content).drop k with
    | nil =>
      rw [drop_eq_nil_iff] at hcons
      omega
    | cons g gs =>
      have hsize : 0 < g.bytes.length := g.size_pos
      rw [flatMap_cons]
      exact append_ne_nil_of_left_ne_nil (ne_nil_of_length_pos hsize) _
  have heq := congrArg (flatMap bytes) hmore
  simp only [flatMap_append, flatMap_longClose] at heq
  generalize ((decode content).take k).flatMap bytes = before at hsplit
  generalize ((decode content).drop k).flatMap bytes = suffix at hsplit hdrop heq
  -- The bracket found there ends within the content and its own bracket.
  have hprefix : closing level <+: suffix ++ closing level := by
    refine prefix_of_prefix_length_le ⟨_, heq⟩ ?_ (by simp)
    rw [← append_assoc]
    exact prefix_append _ _
  obtain ⟨after, hafter⟩ := hprefix
  have := h before after (by rw [← hsplit, append_assoc, ← hafter, append_assoc])
  rw [← hsplit] at this
  exact hdrop (self_eq_append_right.mp this)

/-- A long string is read up to its own closing bracket. -/
theorem dispatch_bracketed
    (h : ∀ before after, content ++ closing level = before ++ closing level ++ after →
      before = content)
    (hs : s.rest =
      decode (List.replicate level 61 ++ 91 :: (content ++ closing level)) ++ tail) :
    dispatch 91 s = emit .longString (s.advanceBy (decode
      (List.replicate level 61 ++ 91 :: (content ++ closing level))).length) := by
  have hclosing : ∀ b ∈ (closing level).head?, b.toNat < 128 := by
    simp [closing]
  have hequal : ∀ b ∈ replicate level (61 : UInt8), b.toNat < 128 := by
    simp only [mem_replicate]
    rintro b ⟨-, rfl⟩
    decide
  -- All of the brackets is ASCII, so that only the content is decoded.
  have hdecode : decode (replicate level 61 ++ 91 :: (content ++ closing level)) =
      (replicate level 61).map ascii ++
        ascii 91 :: (decode content ++ longClose level) := by
    rw [decode_append _ (by simp), decode_of_lt hequal, decode_cons_of_lt (by decide),
      decode_append content hclosing, longClose_eq]
    rfl
  have hrest : s.rest = (replicate level 61).map ascii ++
      ascii 91 :: (decode content ++ (longClose level ++ tail)) := by
    rw [hs, hdecode]
    simp
  have hbody : (s.advanceBy (level + 1)).rest =
      decode content ++ (longClose level ++ tail) := by
    have hopen := Scanner.rest_advanceBy hrest
    rw [length_map, length_replicate] at hopen
    rw [← Scanner.advanceBy_add, Scanner.advanceBy_rest, hopen]
    rfl
  show bracket s = _
  rw [bracket, hrest, longLevel?_eq]
  simp only
  rw [longBody, hbody, longEnd_eq (by simp [longClose]) (longClose_first h tail), hdecode]
  simp only [if_true]
  rw [Scanner.advanceBy_add]
  congr 2
  simp
  omega

end Lexer

end LuaLint
