import LuaLint.Syntax.Literal
import LuaLint.Proofs.Grammar.WellFormed
import LuaLint.Proofs.Lexing.Lexemes

/-!
# The spelling of names and literals

Which words Lua can write: names, numerals, quoted strings with their escape sequences, and strings
in long brackets. A string literal is described together with the byte string that it spells, and
decoding it gives that byte string.

Main statements: `Literal.Spells.unescape_eq`, `Literal.unbracket_eq`.
-/

namespace LuaLint

open List Ascii

variable {b quote : UInt8} {ds body value : Bytes}

/-! ## Numerals -/

/-- The digits of a numeral, with at most one point and at least one digit. -/
inductive Mantissa (digit : Nat → Bool) : Bytes → Prop where
  | whole {ds : Bytes} : ds ≠ [] → (∀ b ∈ ds, digit b.toNat) → Mantissa digit ds
  | point {ds fs : Bytes} : ds ++ fs ≠ [] → (∀ b ∈ ds, digit b.toNat) →
      (∀ b ∈ fs, digit b.toNat) → Mantissa digit (ds ++ 46 :: fs)

/-- The exponent of a numeral: nothing, or a marker, a sign that may be missing, and digits. -/
inductive Exponent (markers : Bytes) : Bytes → Prop where
  | absent : Exponent markers []
  | present {m : UInt8} {sign ds : Bytes} : m ∈ markers → sign ∈ [[], [43], [45]] → ds ≠ [] →
      (∀ b ∈ ds, Ascii.isDigit b.toNat) → Exponent markers (m :: (sign ++ ds))

/-- A numeral: decimal with an exponent marked `e`, or hexadecimal with one marked `p`. -/
inductive IsNumeral : Bytes → Prop where
  | decimal {ds exp : Bytes} :
      Mantissa Ascii.isDigit ds → Exponent [101, 69] exp → IsNumeral (ds ++ exp)
  | hexadecimal {x : UInt8} {ds exp : Bytes} : x = 120 ∨ x = 88 →
      Mantissa Ascii.isHexDigit ds → Exponent [112, 80] exp → IsNumeral (48 :: x :: (ds ++ exp))

/-! ## Quoted strings -/

namespace Literal

def digitsValue (base : Nat) (ds : Bytes) : Nat :=
  ds.foldl (fun n b => n * base + Ascii.hexValue b.toNat) 0

/-- The one-letter escapes. A line feed after a backslash stands for itself. -/
def letterEscapes : List (UInt8 × UInt8) :=
  [(97, 7), (98, 8), (102, 12), (110, 10), (114, 13), (116, 9), (118, 11), (92, 92), (34, 34),
    (39, 39), (10, 10)]

/-- What is written between quotes, and the byte string that it spells. -/
inductive Spells (quote : UInt8) : Bytes → Bytes → Prop where
  | nil : Spells quote [] []
  | plain {b : UInt8} {body value : Bytes} : b ≠ 10 → b ≠ 92 → b ≠ quote →
      Spells quote body value → Spells quote (b :: body) (b :: value)
  | letter {l b : UInt8} {body value : Bytes} : (l, b) ∈ letterEscapes →
      Spells quote body value → Spells quote (92 :: l :: body) (b :: value)
  | hex {d e : UInt8} {body value : Bytes} :
      Ascii.isHexDigit d.toNat → Ascii.isHexDigit e.toNat → Spells quote body value →
      Spells quote (92 :: 120 :: d :: e :: body) (UInt8.ofNat (digitsValue 16 [d, e]) :: value)
  | decimal {ds body value : Bytes} : ds ≠ [] → (∀ b ∈ ds, Ascii.isDigit b.toNat) →
      ds.length ≤ 3 → (ds.length < 3 → ∀ b ∈ body.head?, Ascii.isDigit b.toNat = false) →
      digitsValue 10 ds ≤ 255 → Spells quote body value →
      Spells quote (92 :: (ds ++ body)) (UInt8.ofNat (digitsValue 10 ds) :: value)
  | unicode {ds body value : Bytes} {c : Char} : ds ≠ [] →
      (∀ b ∈ ds, Ascii.isHexDigit b.toNat) → digitsValue 16 ds = c.toNat →
      Spells quote body value →
      Spells quote (92 :: 117 :: 123 :: (ds ++ 125 :: body)) (Bytes.ofChar c ++ value)
  | skip {spaces body value : Bytes} : (∀ b ∈ spaces, Blank.isLuaSpace b.toNat) →
      (∀ b ∈ body.head?, Blank.isLuaSpace b.toNat = false) → Spells quote body value →
      Spells quote (92 :: 122 :: (spaces ++ body)) value

attribute [local simp] unescape

theorem prepend_ok (bytes value : Bytes) : prepend bytes (.ok value) = .ok (bytes ++ value) := rfl

theorem letterByte?_of_mem {l : UInt8} (h : (l, b) ∈ letterEscapes) : letterByte? l = some b := by
  have hall : (letterEscapes.all fun p => letterByte? p.1 == some p.2) = true := by decide
  simpa using all_eq_true.mp hall _ h

theorem ne_brace_of_isHexDigit (h : isHexDigit b.toNat = true) : b ≠ 125 := by
  rintro rfl
  exact absurd h (by decide)

theorem hexNumber?_eq (hne : ds ≠ []) (h : ∀ b ∈ ds, isHexDigit b.toNat) :
    hexNumber? ds = some (digitsValue 16 ds) := by
  have hany : ds.any (fun b => !isHexDigit b.toNat) = false := by
    rw [any_eq_false]
    intro b hb
    simp [h b hb]
  simp [hexNumber?, hne, hany, digitsValue]

theorem unescape_skipping {spaces : Bytes} (hs : ∀ b ∈ spaces, Blank.isLuaSpace b.toNat)
    (hbody : ∀ b ∈ body.head?, Blank.isLuaSpace b.toNat = false) :
    unescape .skipping (spaces ++ body) = unescape .plain body := by
  induction spaces with
  | nil =>
    cases body with
    | nil => rfl
    | cons b body =>
      have hb := hbody b (by simp)
      simp [hb]
  | cons b spaces ih =>
    rw [forall_mem_cons] at hs
    rw [cons_append, unescape, if_pos hs.1]
    exact ih hs.2

theorem unescape_code (hds : ∀ b ∈ ds, b ≠ 125) (seen body : Bytes) :
    unescape (.code seen) (ds ++ 125 :: body) = unescape (.code (seen ++ ds)) (125 :: body) := by
  induction ds generalizing seen with
  | nil => rw [append_nil, nil_append]
  | cons b ds ih =>
    rw [forall_mem_cons] at hds
    rw [cons_append, unescape, if_neg hds.1, ih hds.2, append_assoc]
    rfl

theorem unescape_decimal_end {value count : Nat}
    (h : count < 3 → ∀ b ∈ body.head?, isDigit b.toNat = false) :
    unescape (.decimal value count) body = finishDecimal value (unescape .plain body) := by
  cases body with
  | nil => rfl
  | cons b body =>
    have hstop : (decide (count < 3) && isDigit b.toNat) = false := by
      by_cases hc : count < 3
      · simp [h hc b (by simp)]
      · simp [hc]
    conv => lhs; rw [unescape, hstop]
    by_cases hb : b = 92 <;> simp [hb]

theorem hexValue_of_isDigit {code : Nat} (h : isDigit code = true) :
    hexValue code = code - 48 := by
  simp [hexValue, h]

theorem unescape_decimal (hds : ∀ b ∈ ds, isDigit b.toNat) {value count : Nat}
    (hcount : count + ds.length ≤ 3)
    (hbody : count + ds.length < 3 → ∀ b ∈ body.head?, isDigit b.toNat = false) :
    unescape (.decimal value count) (ds ++ body) =
      finishDecimal (ds.foldl (fun n b => n * 10 + hexValue b.toNat) value)
        (unescape .plain body) := by
  induction ds generalizing value count with
  | nil => exact unescape_decimal_end hbody
  | cons b ds ih =>
    rw [forall_mem_cons] at hds
    rw [length_cons] at hcount hbody
    have hlt : count < 3 := by omega
    rw [cons_append, unescape, if_pos (by simp [hlt, hds.1]), ih hds.2 (by omega)
      (fun h => hbody (by omega)), foldl_cons, hexValue_of_isDigit hds.1]

theorem letterByte?_of_isDigit (h : isDigit b.toNat = true) :
    letterByte? b = none ∧ b ≠ 122 ∧ b ≠ 120 ∧ b ≠ 117 := by
  have hb : 48 ≤ b.toNat ∧ b.toNat ≤ 57 := by simpa [isDigit] using h
  have hne : ∀ n : UInt8, n.toNat < 48 ∨ 57 < n.toNat → b ≠ n := by
    rintro n hn rfl
    omega
  refine ⟨?_, hne _ (by decide), hne _ (by decide), hne _ (by decide)⟩
  have hall : ∀ n ∈ letterEscapes.map Prod.fst, n.toNat < 48 ∨ 57 < n.toNat := by
    simp [letterEscapes]
  have hletter : ∀ n ∈ letterEscapes.map Prod.fst, b ≠ n := fun n hn => hne n (hall n hn)
  simp only [letterEscapes, map_cons, map_nil, forall_mem_cons] at hletter
  simp [letterByte?, hletter]

/-- Decoding the body of a quoted string gives what it spells. -/
theorem Spells.unescape_eq (h : Spells quote body value) : unescape .plain body = .ok value := by
  induction h with
  | nil => rfl
  | plain _ hb _ _ ih => rw [unescape, if_neg hb, ih, prepend_ok]; rfl
  | letter hl _ ih =>
    rw [unescape, if_pos rfl, unescape, letterByte?_of_mem hl]
    simp only
    rw [ih, prepend_ok]
    rfl
  | @hex d e body value hd he _ ih =>
    have hnumber : hexNumber? [d, e] = some (digitsValue 16 [d, e]) :=
      hexNumber?_eq (by simp) (by simp [hd, he])
    have hx : letterByte? 120 = none := rfl
    simp [hx, hnumber, ih, prepend_ok]
  | @decimal ds body value hne hds hlen hstop hvalue _ ih =>
    obtain ⟨d, ds, rfl⟩ := exists_cons_of_ne_nil hne
    rw [forall_mem_cons] at hds
    rw [length_cons] at hlen hstop
    obtain ⟨hletter, hz, hx, hu⟩ := letterByte?_of_isDigit hds.1
    -- The decoder adds up the digits one by one, up to three of them.
    have hsum : digitsValue 10 (d :: ds) =
        ds.foldl (fun n b => n * 10 + hexValue b.toNat) (d.toNat - 48) := by
      rw [digitsValue, foldl_cons, hexValue_of_isDigit hds.1, Nat.zero_mul, Nat.zero_add]
    rw [cons_append, unescape, if_pos rfl, unescape, hletter]
    simp only
    rw [if_neg hz, if_neg hx, if_neg hu, if_pos hds.1,
      unescape_decimal hds.2 (by omega) (fun h => hstop (by omega)), ← hsum, ih, finishDecimal,
      if_neg (by omega), prepend_ok]
    rfl
  | @unicode ds body value c hne hds hvalue _ ih =>
    have hu : letterByte? 117 = none := rfl
    -- The decoder looks for the closing brace before it reads any digit.
    have hbrace : (123 :: (ds ++ 125 :: body)).contains 125 = true := by simp
    have hvalid : c.toNat.isValidChar := c.valid
    have hcode : codePoint (digitsValue 16 ds) = Bytes.ofChar c := by
      rw [hvalue, codePoint, if_pos hvalid, Char.ofNat_toNat]
    have hrange : ¬ digitsValue 16 ds > 0x10FFFF := by
      unfold Nat.isValidChar at hvalid
      omega
    rw [unescape, if_pos rfl, unescape, hu]
    simp only
    rw [if_neg (by decide), if_neg (by decide), if_pos trivial, if_pos hbrace, unescape,
      if_pos rfl, unescape_code (fun b hb => ne_brace_of_isHexDigit (hds b hb)), nil_append,
      unescape, if_pos rfl, hexNumber?_eq hne hds]
    simp only
    rw [if_neg hrange, hcode, ih, prepend_ok]
  | skip hs hbody _ ih =>
    have hz : letterByte? 122 = none := rfl
    rw [unescape, if_pos rfl, unescape, hz]
    simp only
    rw [if_pos trivial, unescape_skipping hs hbody, ih]

theorem unquote_quoted (quote : UInt8) (body : Bytes) :
    unquote (quote :: (body ++ [quote])) = unescape .plain body := by
  simp [unquote, Bytes.slice]

theorem unquote_eq (h : Spells quote body value) :
    unquote (quote :: (body ++ [quote])) = .ok value :=
  (unquote_quoted quote body).trans h.unescape_eq

/-! ## Long brackets -/

/-- The second byte string is the first one less one line break at its beginning, if there is
one. -/
inductive LessLineBreak : Bytes → Bytes → Prop where
  | crlf {s : Bytes} : LessLineBreak (13 :: 10 :: s) s
  | lfcr {s : Bytes} : LessLineBreak (10 :: 13 :: s) s
  | lf {s : Bytes} : s.head? ≠ some 13 → LessLineBreak (10 :: s) s
  | cr {s : Bytes} : s.head? ≠ some 10 → LessLineBreak (13 :: s) s
  | none {s : Bytes} : s.head? ≠ some 13 → s.head? ≠ some 10 → LessLineBreak s s

theorem LessLineBreak.dropLineBreak_eq {s : Bytes} (h : LessLineBreak s value) :
    dropLineBreak s = value := by
  unfold dropLineBreak
  cases h with
  | crlf | lfcr => rfl
  | lf hne | cr hne =>
    split
    all_goals simp_all
  | none hcr hlf =>
    split
    all_goals simp_all

/-- Only a line break right behind the bracket is dropped. -/
theorem unbracket_eq {level : Nat} {content : Bytes} (h : LessLineBreak content value) :
    unbracket (opening level ++ content ++ closing level) = value := by
  have hlevel : (((opening level ++ content ++ closing level).drop 1).takeWhile (· != 91)).length =
      level := by
    simp [opening]
  have hslice : Bytes.slice (opening level ++ content ++ closing level) (level + 2)
      ((opening level ++ content ++ closing level).length - level - 2) = content := by
    have hopening : (opening level).length = level + 2 := by simp [opening]
    have hclosing : (closing level).length = level + 2 := by simp [closing]
    have hlen : (opening level ++ content ++ closing level).length - level - 2 - (level + 2) =
        content.length := by
      rw [length_append, length_append, hopening, hclosing]
      omega
    rw [Bytes.slice, hlen, append_assoc, ← hopening, drop_left, take_left]
  rw [unbracket, hlevel, hslice, h.dropLineBreak_eq]

/-! ## Words -/

/-- A string literal and the byte string that it spells. A closing bracket ends a long string where
it first occurs. -/
inductive IsString : Bytes → Bytes → Prop where
  | quoted {quote : UInt8} {body value : Bytes} : quote = 34 ∨ quote = 39 →
      Spells quote body value → IsString (quote :: (body ++ [quote])) value
  | bracketed {level : Nat} {content value : Bytes} :
      (∀ before after, content ++ closing level = before ++ closing level ++ after →
        before = content) →
      LessLineBreak content value → IsString (opening level ++ content ++ closing level) value

end Literal

/-- The names and literals that Lua can write. -/
def Word.Valid : Word → Prop
  | .name text => IsName text
  | .number raw => IsNumeral raw
  | .string raw value => Literal.IsString raw value

end LuaLint
