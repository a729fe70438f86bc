import LuaLint.Proofs.Parsing.RoundTrip

/-!
# String literals are what they spell

The lexer looks for the end of a quoted string character by character, and the decoder goes over its
bytes. Both follow the escape sequences, each in its own way, and they stay in step: where the lexer
finds the closing quote, the decoder is not within an escape sequence.

Main statements: `Literal.InStep.step`, `Lexer.takes_string`, `Parser.literals_spelled`.
-/

namespace LuaLint

open List Glyph

variable {result : Except EscapeError Bytes} {raw value : Bytes} {mark : Mark} {stream : Stream}

/-! ## Decoding within bounds -/

namespace Literal

/-- The mode after a byte, given the bytes behind it, unless decoding fails there. -/
def Mode.after (rest : Bytes) : Mode → UInt8 → Option Mode
  | .plain, b => some (if b = 92 then .escaped else .plain)
  | .skipping, b =>
    some (if Blank.isLuaSpace b.toNat then .skipping else if b = 92 then .escaped else .plain)
  | .escaped, b =>
    if (letterByte? b).isSome then some .plain
    else if b = 122 then some .skipping
    else if b = 120 then if rest.length < 2 then none else some (.hex [])
    else if b = 117 then if rest.contains 125 then some .brace else none
    else if Ascii.isDigit b.toNat then some (.decimal (b.toNat - 48) 1)
    else none
  | .hex digits, b =>
    if digits.isEmpty then some (.hex [b])
    else if (hexNumber? (digits ++ [b])).isSome then some .plain
    else none
  | .brace, b => if b = 123 then some (.code []) else none
  | .code digits, b =>
    if b = 125 then if (hexNumber? digits).any (· ≤ 0x10FFFF) then some .plain else none
    else some (.code (digits ++ [b]))
  | .decimal value count, b =>
    if count < 3 && Ascii.isDigit b.toNat then
      some (.decimal (value * 10 + (b.toNat - 48)) (count + 1))
    else if value > 255 then none
    else some (if b = 92 then .escaped else .plain)

/-- Decoding never needs a byte where none is left. -/
def Within : Mode → Bytes → Prop
  | .plain, [] | .skipping, [] | .decimal _ _, [] => True
  | .escaped, [] | .hex _, [] | .brace, [] | .code _, [] => False
  | m, b :: rest => ∀ m' ∈ m.after rest b, Within m' rest

theorem prepend_nil (result : Except EscapeError Bytes) : prepend [] result = result := by
  cases result <;> rfl

theorem prepend_prepend (xs ys : Bytes) (result : Except EscapeError Bytes) :
    prepend xs (prepend ys result) = prepend (xs ++ ys) result := by
  cases result <;> simp [prepend, Except.map]

theorem prepend_eq_error {bytes : Bytes} {cause : EscapeError} :
    prepend bytes result = .error cause ↔ result = .error cause := by
  cases result <;> simp [prepend, Except.map]

/-- One byte adds to what is spelled and leads to the next mode, or it is where decoding fails. -/
inductive Advances (rest : Bytes) : Option Mode → Except EscapeError Bytes → Prop where
  | go (m : Mode) (out : Bytes) : Advances rest (some m) (prepend out (unescape m rest))
  | fail (cause : EscapeError) : cause ≠ .truncated → Advances rest none (.error cause)

theorem Advances.still (m : Mode) (rest : Bytes) : Advances rest (some m) (unescape m rest) :=
  prepend_nil (unescape m rest) ▸ .go m []

theorem Advances.not_truncated {rest : Bytes} {next : Option Mode} (h : Advances rest next result)
    (hrest : ∀ m ∈ next, unescape m rest ≠ .error .truncated) : result ≠ .error .truncated := by
  cases h with
  | go m out =>
    rw [Ne, prepend_eq_error]
    exact hrest m rfl
  | fail cause hcause => simpa using hcause

theorem advances_unescape (m : Mode) (b : UInt8) (rest : Bytes) :
    Advances rest (m.after rest b) (unescape m (b :: rest)) := by
  cases m <;> simp only [unescape, Mode.after, finishDecimal, prepend_prepend] <;>
    grind [Advances.go, Advances.still, Advances.fail]

theorem Within.not_truncated {m : Mode} {s : Bytes} (h : Within m s) :
    unescape m s ≠ .error .truncated := by
  induction s generalizing m with
  | nil =>
    cases m with
    | plain | skipping => simp [unescape]
    | decimal => simp only [unescape, finishDecimal]; split <;> simp [prepend_eq_error]
    | escaped | hex | brace | code => exact h.elim
  | cons b rest ih =>
    have hall : ∀ m' ∈ m.after rest b, Within m' rest := by
      cases m <;> exact h
    exact (advances_unescape m b rest).not_truncated fun m' hm' => ih (hall m' hm')

/-! ## The decoder and the lexer -/

open Lexer (StringMode stringStep bodyMode bodyMode_cons)

/-- The decoder and the lexer have come to the same place, in front of the given bytes. Within the
digits of an escape sequence the lexer is among ordinary characters, unless there is something else
among them. -/
def InStep : Mode → StringMode → Bytes → Prop
  | .plain, a, _ | .decimal _ _, a, _ => a = .plain
  | .escaped, a, _ => a = .escaped
  | .skipping, a, _ => a = .skipping
  | .hex digits, a, rest => ((∀ d ∈ digits, Ascii.isHexDigit d.toNat) → a = .plain) ∧
      digits.length < 2 ∧ 2 ≤ digits.length + rest.length
  | .brace, a, rest => a = .plain ∧ 125 ∈ rest
  | .code digits, a, rest => ((∀ d ∈ digits, Ascii.isHexDigit d.toNat) → a = .plain) ∧ 125 ∈ rest

variable {quote b : UInt8} {m m' : Mode} {a a' : StringMode} {rest : Bytes}

theorem eq_of_stringStep (h : stringStep quote.toNat a b.toNat = some a') :
    (a = .escaped → a' = if b = 122 then .skipping else .plain) ∧
    (a = .skipping → Blank.isLuaSpace b.toNat = true → a' = .skipping) ∧
    (a = .plain ∨ a = .skipping ∧ Blank.isLuaSpace b.toNat = false →
      a' = if b = 92 then .escaped else .plain) := by
  have hcode : ∀ c : UInt8, b.toNat = c.toNat ↔ b = c := fun c => UInt8.toNat_inj
  have hz := hcode 122
  have hbackslash := hcode 92
  simp only [UInt8.reduceToNat] at hz hbackslash
  cases a <;> simp only [stringStep] at h <;> grind

theorem isHexDigit_of_hexNumber? {digits : Bytes} (h : (hexNumber? digits).isSome) :
    ∀ d ∈ digits, Ascii.isHexDigit d.toNat := by
  unfold hexNumber? at h
  split at h
  · cases h
  · rename_i hall
    simp_all

/-- One byte keeps the decoder and the lexer in step. -/
theorem InStep.step (h : InStep m a (b :: rest)) (ha : stringStep quote.toNat a b.toNat = some a')
    (hm : m.after rest b = some m') : InStep m' a' rest := by
  obtain ⟨hescaped, hskipping, hplain⟩ := eq_of_stringStep ha
  -- A digit is no backslash, so that the lexer stays among ordinary characters.
  have hhex : Ascii.isHexDigit b.toNat = true → b ≠ 92 := by
    rintro hb rfl
    exact absurd hb (by decide)
  cases m with
  | plain | skipping | brace => grind [InStep, Mode.after]
  | escaped =>
    have hletter : (letterByte? 122).isSome = false := rfl
    grind [InStep, Mode.after]
  | decimal value count =>
    have hdigit : Ascii.isDigit b.toNat = true → b ≠ 92 := fun h =>
      hhex (Lexer.isHexDigit_of_isDigit h)
    grind [InStep, Mode.after]
  | hex digits =>
    obtain ⟨ha, hshort, hlong⟩ := h
    simp only [Mode.after] at hm
    cases digits with
    | nil =>
      cases hm
      refine ⟨fun hb => ?_, by simp, by simpa [Nat.add_comm] using hlong⟩
      rw [hplain (.inl (ha (by simp))), if_neg (hhex (hb b (by simp)))]
    | cons d digits =>
      obtain ⟨hdigits, rfl⟩ : (hexNumber? (d :: digits ++ [b])).isSome ∧ m' = .plain := by grind
      have hall := isHexDigit_of_hexNumber? hdigits
      have hb : b ≠ 92 := hhex (hall b (by simp))
      show a' = .plain
      rw [hplain (.inl (ha fun d' hd' => hall d' (mem_append_left _ hd'))), if_neg hb]
  | code digits =>
    obtain ⟨ha, hbrace⟩ := h
    simp only [Mode.after] at hm
    split at hm
    · rename_i hb
      split at hm
      · rename_i hnumber
        cases hm
        have hall := isHexDigit_of_hexNumber? (Option.isSome_of_any hnumber)
        show a' = .plain
        rw [hplain (.inl (ha hall)), hb, if_neg (by decide)]
      · cases hm
    · rename_i hb
      cases hm
      refine ⟨fun hall => ?_, (mem_cons.mp hbrace).resolve_left (Ne.symm hb)⟩
      rw [forall_mem_append, forall_mem_singleton] at hall
      rw [hplain (.inl (ha hall.1)), if_neg (hhex hall.2)]

/-- The decoder finds all the bytes that it needs. -/
theorem InStep.within (h : InStep m a rest)
    (hrun : bodyMode quote a rest = some a') (ha' : a' ≠ .escaped) : Within m rest := by
  induction rest generalizing m a with
  | nil =>
    cases hrun
    cases m with
    | plain | skipping | decimal => trivial
    | escaped => exact ha' h
    | hex => exact absurd h.2.2 (Nat.not_le_of_lt h.2.1)
    | brace | code => cases h.2
  | cons b rest ih =>
    have hall : ∀ m' ∈ m.after rest b, Within m' rest := by
      intro m' hm'
      cases hstep : stringStep quote.toNat a b.toNat with
      | none => simp [bodyMode, Lexer.modeAfter, hstep] at hrun
      | some next => exact ih (h.step hstep hm') (bodyMode_cons hstep ▸ hrun)
    cases m <;> exact hall

end Literal

/-! ## Tokens -/

namespace Lexer

/-- A string that is closed has its quote at the end, and the lexer is not within an escape sequence
there. -/
theorem exists_of_stringEnd {quote : Nat} {mode : StringMode} {gs : List Glyph}
    (h : stringEnd quote mode gs = (gs.length, true)) :
    ∃ init g mode', gs = init ++ [g] ∧ g.code = quote ∧
      modeAfter quote mode (init.map code) = some mode' ∧ mode' ≠ .escaped := by
  induction gs generalizing mode with
  | nil => cases h
  | cons x gs ih =>
    rcases stringEnd_cons quote mode x with ⟨-, hmode, hend⟩ | ⟨next, hstep, hgo⟩
    · rw [hend, length_cons, Prod.mk.injEq, beq_iff_eq] at h
      obtain rfl : gs = [] := length_eq_zero_iff.mp (by omega)
      exact ⟨[], x, mode, rfl, h.2, rfl, hmode⟩
    · rw [hgo, length_cons, Prod.mk.injEq, Nat.add_right_cancel_iff] at h
      obtain ⟨init, g, mode', rfl, hg, hrun, hmode⟩ := ih (Prod.ext h.1 h.2)
      refine ⟨x :: init, g, mode', rfl, hg, ?_, hmode⟩
      rw [map_cons, modeAfter_cons hstep, hrun]

theorem body_of_isQuoted {text : Bytes} (h : IsQuoted text) :
    ∃ quote body mode, (quote = 34 ∨ quote = 39) ∧ text = quote :: (body ++ [quote]) ∧
      bodyMode quote .plain body = some mode ∧ mode ≠ .escaped := by
  obtain ⟨hquote, hend⟩ := h
  rename_i quote gs
  have hlt : quote.toNat < 128 := by rcases hquote with rfl | rfl <;> decide
  obtain ⟨init, g, mode, rfl, hg, hrun, hmode⟩ := exists_of_stringEnd hend
  refine ⟨quote, init.flatMap bytes, mode, hquote, ?_, ?_, hmode⟩
  · rw [flatMap_append, flatMap_singleton, bytes_of_code_lt (hg ▸ hlt), hg,
      UInt8.ofNat_toNat]
  · rwa [bodyMode, ← modeAfter_bytes hlt]

/-- A spelled string is one token, whatever comes behind it. -/
theorem takes_string {tail : Bytes} (h : Literal.IsString raw value) {s : Scanner}
    (hs : s.rest = decode (raw ++ tail)) :
    Takes s (stringKind raw) [] (decode raw) (decode tail) := by
  obtain ⟨b, rest, rfl, hbegins, hlast, hdispatch⟩ := dispatch_string h
  rw [decode_append_of_last hlast] at hs
  have hcons : s.rest = [] ++ ascii b :: (decode rest ++ decode tail) := by
    rw [hs, decode_cons_of_lt hbegins.ascii]
    rfl
  exact takes_of_begins hbegins (by simp) hs (hdispatch _ _ (rest_begun hcons))

end Lexer

/-! ## Literals and their values -/

namespace Parser

theorem stringLiteral_eq (h : Literal.IsString raw value)
    (hpeek : stream.peek = ⟨stringKind raw, raw, mark⟩) :
    stringLiteral stream = .ok (.string mark.pos raw value, stream.advance) := by
  have hreads := stringReads_of_isString h
  unfold stringLiteral
  simp only [bind_take, hpeek]
  rcases stringKind_cases raw with hkind | hkind
  · rw [hkind]
    simp only [Token.text, hreads.bracketed hkind]
    rfl
  · rw [hkind]
    simp only [Token.text, hreads.quoted hkind]
    rfl

theorem literal_eq (h : Literal.IsString raw value)
    (hpeek : stream.peek = ⟨stringKind raw, raw, mark⟩) (fuel : Nat) :
    simpleExpr (fuel + 1) stream = .ok (.string mark.pos raw value, stream.advance) ∧
    callArgs (fuel + 1) stream =
      .ok ((.literal, [.string mark.pos raw value]), stream.advance) := by
  have hliteral := stringLiteral_eq h (stream.peek_look.trans hpeek)
  rw [Stream.advance_look] at hliteral
  have hkind : stream.peek.kind = stringKind raw := congrArg Token.kind hpeek
  simp only [simpleExpr, callArgs, bind_peekKind, hkind]
  rcases stringKind_cases raw with hraw | hraw <;> rw [hraw] <;>
    exact ⟨hliteral, by dsimp only; rw [run_bind, hliteral]; rfl⟩

/-- Every spelling of a byte string is read as one token, whatever stands behind it, and as an
expression with that value. Of a quoted string, the decoder takes what is between the quotes; it
never needs a byte where none is left, and there is always one behind a backslash. -/
theorem literals_spelled :
    (∀ raw value, Literal.IsString raw value → ∀ (s : Scanner) (tail : Bytes),
      s.rest = Glyph.decode (raw ++ tail) →
      (Lexer.next s).1 = ⟨stringKind raw, raw, s.here⟩ ∧
      (Lexer.next s).2.rest = Glyph.decode tail ∧
      ∀ (stream : Stream) (fuel : Nat), stream.peek = (Lexer.next s).1 →
        simpleExpr (fuel + 1) stream = .ok (.string s.here.pos raw value, stream.advance) ∧
        callArgs (fuel + 1) stream =
          .ok ((.literal, [.string s.here.pos raw value]), stream.advance)) ∧
    ∀ source, ∀ t ∈ Lexer.tokens source, t.kind = .string →
      ∃ quote body, (quote = 34 ∨ quote = 39) ∧ t.text = quote :: (body ++ [quote]) ∧
        Literal.unquote t.text = Literal.unescape .plain body ∧ Literal.Within .plain body ∧
        Literal.unquote t.text ≠ .error .truncated := by
  refine ⟨fun raw value h s tail hs => ?_, fun source t ht hkind => ?_⟩
  · have htakes := Lexer.takes_string h hs
    have htoken : (Lexer.next s).1 = ⟨stringKind raw, raw, s.here⟩ := by
      rw [htakes.token, Glyph.flatMap_bytes_decode]
      rfl
    exact ⟨htoken, htakes.after.rest, fun stream fuel hpeek =>
      literal_eq h (hpeek.trans htoken) fuel⟩
  -- The extent of the token is known from the lexer, which the decoder follows.
  · have hlexeme := (Lexer.tiles_tokens source).lexeme_of_mem ht (by rw [hkind]; decide)
    rw [hkind] at hlexeme
    have htext : t.text = t.lexeme := by simp [Token.text, hkind]
    obtain ⟨quote, body, mode, hquote, hbody, hrun, hmode⟩ := Lexer.body_of_isQuoted hlexeme
    have hwithin : Literal.Within .plain body :=
      Literal.InStep.within (a := .plain) rfl hrun hmode
    have hslice : Literal.unquote t.text = Literal.unescape .plain body := by
      rw [htext, hbody, Literal.unquote_quoted]
    exact ⟨quote, body, hquote, htext.trans hbody, hslice, hwithin,
      hslice ▸ hwithin.not_truncated⟩

theorem literals_spelled_escapes :
    ∃ body value : Bytes, body = "\\z  a\\x62\\9\\u\x7bE9\x7d\\'" ∧ value = "ab\t\u00e9'" ∧
      Literal.IsString (39 :: (body ++ [39])) value ∧
      (Lexer.next (.ofSource (39 :: (body ++ [39]) ++ body))).1 =
        ⟨.string, 39 :: (body ++ [39]), .first⟩ ∧
      (∀ fuel, (simpleExpr (fuel + 1) (.ofTokens [⟨.string, 39 :: (body ++ [39]), .first⟩,
        ⟨.eof, [], .first⟩])).map Prod.fst = .ok (.string 0 (39 :: (body ++ [39])) value)) ∧
      ∃ t ∈ Lexer.tokens (39 :: (body ++ [39])), t.kind = .string ∧
        Literal.unquote t.text ≠ .error .truncated := by
  have spells : Literal.Spells 39 "\\z  a\\x62\\9\\u\x7bE9\x7d\\'" "ab\t\u00e9'" := by
    have unicode : Literal.Spells 39 "\\u\x7bE9\x7d\\'" "\u00e9'" :=
      @Literal.Spells.unicode 39 [69, 57] _ _ 'é' (by decide) (List.all_eq_true.mp (by decide))
        (by decide) (.letter (by decide) .nil)
    have decimal : Literal.Spells 39 "\\9\\u\x7bE9\x7d\\'" "\t\u00e9'" :=
      @Literal.Spells.decimal 39 [57] _ _ (by decide) (List.all_eq_true.mp (by decide)) (by decide)
        (fun _ _ hb => Option.some.inj hb ▸ rfl) (by decide) unicode
    exact @Literal.Spells.skip 39 [32, 32] _ _ (List.all_eq_true.mp (by decide))
      (fun _ hb => Option.some.inj hb ▸ rfl)
      (.plain (by decide) (by decide) (by decide) (.hex (by decide) (by decide) decimal))
  refine ⟨_, _, rfl, rfl, ?_⟩
  have hmem : ⟨.string, 39 :: (Bytes.ofString "\\z  a\\x62\\9\\u\x7bE9\x7d\\'" ++ [39]), .first⟩ ∈
      Lexer.tokens (39 :: (Bytes.ofString "\\z  a\\x62\\9\\u\x7bE9\x7d\\'" ++ [39])) := by
    decide +kernel
  generalize Bytes.ofString "\\z  a\\x62\\9\\u\x7bE9\x7d\\'" = body at spells hmem ⊢
  have hraw := Literal.IsString.quoted (.inr rfl) spells
  obtain ⟨htoken, -, hparsed⟩ := literals_spelled.1 _ _ hraw
    (.ofSource (39 :: (body ++ [39]) ++ body)) _ rfl
  obtain ⟨-, -, -, -, -, -, htruncated⟩ := literals_spelled.2 _ _ hmem rfl
  refine ⟨hraw, htoken, fun fuel => ?_, _, hmem, rfl, htruncated⟩
  exact congrArg (Except.map Prod.fst)
    (hparsed (.ofTokens [⟨.string, _, .first⟩, ⟨.eof, [], .first⟩])
    fuel htoken.symm).1

end Parser

end LuaLint
