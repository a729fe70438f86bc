import LuaLint.Text.Glyph

/-!
# Glyphs and the bytes they are read from

A glyph in front of a byte string takes a beginning of it, and what follows the glyph is read as if
it stood alone. This lets proofs about glyphs be stated about bytes. ASCII is the easy part: a byte
below 128 is always a glyph of its own.

Main statements: `Glyph.decode_cons`, `Glyph.flatMap_bytes_decode`, `Glyph.decode_split`.
-/

namespace LuaLint

open List Bytes

variable {s t : Bytes} {g : Glyph} {a b c : UInt8}

namespace Glyph

/-! ## Encoding -/

theorem toNat_ofNat {n : Nat} (h : n.isValidChar) : (Char.ofNat n).toNat = n := by
  rw [Char.ofNat, dif_pos h]
  rfl

theorem ofChar_eq (c : Char) : ofChar c =
      if c.toNat ≤ 127 then [UInt8.ofNat c.toNat]
      else if c.toNat ≤ 2047 then
        [UInt8.ofNat (c.toNat / 64 % 32 + 192), UInt8.ofNat (c.toNat % 64 + 128)]
      else if c.toNat ≤ 65535 then
        [UInt8.ofNat (c.toNat / 4096 % 16 + 224), UInt8.ofNat (c.toNat / 64 % 64 + 128),
          UInt8.ofNat (c.toNat % 64 + 128)]
      else
        [UInt8.ofNat (c.toNat / 262144 % 8 + 240), UInt8.ofNat (c.toNat / 4096 % 64 + 128),
          UInt8.ofNat (c.toNat / 64 % 64 + 128), UInt8.ofNat (c.toNat % 64 + 128)] :=
  rfl

theorem size_pos (g : Glyph) : 0 < g.size := by
  cases g with
  | scalar c =>
    show 0 < (ofChar c).length
    rw [ofChar_eq]
    split
    · simp
    · split
      · simp
      · split <;> simp
  | stray b => exact Nat.one_pos

/-- An ASCII glyph is one byte. -/
theorem bytes_of_code_lt (h : g.code < 128) : g.bytes = [UInt8.ofNat g.code] := by
  cases g with
  | scalar c =>
    have hc : c.toNat ≤ 127 := Nat.le_of_lt_succ h
    show ofChar c = [UInt8.ofNat c.toNat]
    rw [ofChar_eq, if_pos hc]
  | stray b => simp [bytes, code]

theorem code_of_ofNat {c : Char} (h : Char.ofNat g.code = c) : g.code = c.toNat := by
  cases g with
  | scalar d =>
    have hd : Char.ofNat d.toNat = d := Char.ofNat_toNat d
    rw [← h]
    show d.toNat = (Char.ofNat d.toNat).toNat
    rw [hd]
  | stray b =>
    have hb : b.toNat < 256 := b.toNat_lt
    have hvalid : b.toNat.isValidChar := .inl (by omega)
    rw [← h]
    exact (toNat_ofNat hvalid).symm

/-! ## Decoding one glyph -/

private theorem ofNat_eq (a : UInt8) {n : Nat} (h : n = a.toNat) : UInt8.ofNat n = a := by
  rw [h, UInt8.ofNat_toNat]

theorem isTail_iff : isTail b = true ↔ 128 ≤ b.toNat ∧ b.toNat ≤ 191 := by
  simp [isTail, UInt8.le_iff_toNat_le]

/-- The first two bytes of a longer sequence. The range of the second byte excludes overlong forms,
surrogates and values that are too large. -/
private theorem second_cases {x y p q l h : UInt8}
    (hs : (if a = x then decide (p ≤ b) && decide (b ≤ 0xBF)
      else if a = y then decide (0x80 ≤ b) && decide (b ≤ q)
      else decide (l ≤ a) && decide (a ≤ h) && isTail b) = true) :
    (a.toNat = x.toNat ∧ p.toNat ≤ b.toNat ∧ b.toNat ≤ 191) ∨
    (a.toNat = y.toNat ∧ 128 ≤ b.toNat ∧ b.toNat ≤ q.toNat) ∨
    (a.toNat ≠ y.toNat ∧ l.toNat ≤ a.toNat ∧ a.toNat ≤ h.toNat ∧ 128 ≤ b.toNat ∧
      b.toNat ≤ 191) := by
  split at hs
  · rename_i ha
    simp only [Bool.and_eq_true, decide_eq_true_eq, UInt8.le_iff_toNat_le] at hs
    exact .inl ⟨congrArg _ ha, hs⟩
  · split at hs
    · rename_i ha
      simp only [Bool.and_eq_true, decide_eq_true_eq, UInt8.le_iff_toNat_le] at hs
      exact .inr (.inl ⟨congrArg _ ha, hs⟩)
    · rename_i ha
      simp only [Bool.and_eq_true, decide_eq_true_eq, UInt8.le_iff_toNat_le, isTail_iff] at hs
      exact .inr (.inr ⟨fun he => ha (UInt8.toNat_inj.mp he), hs.1.1, hs.1.2, hs.2⟩)

theorem bytes_of_two? {c : Char} (h : two? a b = some c) : ofChar c = [a, b] := by
  simp only [two?, Option.ite_none_right_eq_some, Option.some.injEq, Bool.and_eq_true,
    decide_eq_true_eq, UInt8.le_iff_toNat_le, isTail_iff] at h
  obtain ⟨⟨⟨ha, ha'⟩, hb, hb'⟩, rfl⟩ := h
  simp only [UInt8.reduceToNat] at ha ha'
  have hn : (Char.ofNat ((a.toNat - 0xC0) * 64 + (b.toNat - 0x80))).toNat =
      (a.toNat - 0xC0) * 64 + (b.toNat - 0x80) := toNat_ofNat (.inl (by omega))
  rw [ofChar_eq, hn, if_neg (by omega), if_pos (by omega), ofNat_eq a (by omega),
    ofNat_eq b (by omega)]

theorem bytes_of_three? {s : Char} (h : three? a b c = some s) : ofChar s = [a, b, c] := by
  simp only [three?, Option.ite_none_right_eq_some, Option.some.injEq,
    Bool.and_eq_true (_ : Bool) (isTail c), isTail_iff] at h
  obtain ⟨⟨hsecond, hc, hc'⟩, rfl⟩ := h
  have hab := second_cases hsecond
  simp only [UInt8.reduceToNat] at hab
  have hn : (Char.ofNat ((a.toNat - 0xE0) * 4096 + (b.toNat - 0x80) * 64 +
      (c.toNat - 0x80))).toNat =
      (a.toNat - 0xE0) * 4096 + (b.toNat - 0x80) * 64 + (c.toNat - 0x80) := by
    refine toNat_ofNat ?_
    unfold Nat.isValidChar
    omega
  rw [ofChar_eq, hn, if_neg (by omega), if_neg (by omega), if_pos (by omega),
    ofNat_eq a (by omega), ofNat_eq b (by omega), ofNat_eq c (by omega)]

theorem bytes_of_four? {d : UInt8} {s : Char} (h : four? a b c d = some s) :
    ofChar s = [a, b, c, d] := by
  simp only [four?, Option.ite_none_right_eq_some, Option.some.injEq,
    Bool.and_eq_true _ (isTail d), Bool.and_eq_true _ (isTail c), isTail_iff] at h
  obtain ⟨⟨⟨hsecond, hc, hc'⟩, hd, hd'⟩, rfl⟩ := h
  have hab := second_cases hsecond
  simp only [UInt8.reduceToNat] at hab
  have hn : (Char.ofNat ((a.toNat - 0xF0) * 262144 + (b.toNat - 0x80) * 4096 +
      (c.toNat - 0x80) * 64 + (d.toNat - 0x80))).toNat =
      (a.toNat - 0xF0) * 262144 + (b.toNat - 0x80) * 4096 + (c.toNat - 0x80) * 64 +
        (d.toNat - 0x80) := by
    refine toNat_ofNat ?_
    unfold Nat.isValidChar
    omega
  rw [ofChar_eq, hn, if_neg (by omega), if_neg (by omega), if_neg (by omega),
    ofNat_eq a (by omega), ofNat_eq b (by omega), ofNat_eq c (by omega), ofNat_eq d (by omega)]

private theorem toNat_of_eq {n : Nat} (h : UInt8.ofNat n = a) (hn : n < 256) : a.toNat = n := by
  rw [← h, UInt8.toNat_ofNat', Nat.mod_eq_of_lt hn]

theorem two?_of_le (h : 0xE0 ≤ a.toNat) : two? a b = none := by
  have ha : ¬ a ≤ 0xDF := fun hle => absurd (UInt8.le_iff_toNat_le.mp hle) (by simp; omega)
  simp [two?, ha]

theorem three?_of_le (h : 0xF0 ≤ a.toNat) : three? a b c = none := by
  have hle : ∀ n : UInt8, n.toNat < 0xF0 → ¬ a ≤ n := fun n hn hle =>
    absurd (UInt8.le_iff_toNat_le.mp hle) (by omega)
  have h0 : a ≠ 0xE0 := fun he => hle 0xE0 (by decide) (UInt8.le_of_eq he)
  have h1 : a ≠ 0xED := fun he => hle 0xED (by decide) (UInt8.le_of_eq he)
  simp [three?, h0, h1, hle 0xEF (by decide)]

theorem two?_eq_some {n : Nat} (ha : a.toNat = n / 64 + 192) (hb : b.toNat = n % 64 + 128)
    (hn : 127 < n) (hn' : n ≤ 2047) : two? a b = some (Char.ofNat n) := by
  have hvalue : (a.toNat - 0xC0) * 64 + (b.toNat - 0x80) = n := by omega
  rw [two?, if_pos, hvalue]
  simp only [Bool.and_eq_true, decide_eq_true_eq, UInt8.le_iff_toNat_le, isTail_iff,
    UInt8.reduceToNat]
  omega

theorem three?_eq_some {n : Nat} (ha : a.toNat = n / 4096 + 224) (hb : b.toNat = n / 64 % 64 + 128)
    (hc : c.toNat = n % 64 + 128) (hn : 2047 < n) (hn' : n < 65536) (hvalid : n.isValidChar) :
    three? a b c = some (Char.ofNat n) := by
  have hvalue : (a.toNat - 0xE0) * 4096 + (b.toNat - 0x80) * 64 + (c.toNat - 0x80) = n := by omega
  unfold Nat.isValidChar at hvalid
  rw [three?, hvalue, if_pos]
  simp only [Bool.and_eq_true, isTail_iff, ← UInt8.toNat_inj]
  refine ⟨?_, by omega⟩
  split
  · simp [UInt8.le_iff_toNat_le] at *
    omega
  · split <;> simp [isTail_iff, UInt8.le_iff_toNat_le] at * <;> omega

theorem four?_eq_some {d : UInt8} {n : Nat} (ha : a.toNat = n / 262144 + 240)
    (hb : b.toNat = n / 4096 % 64 + 128) (hc : c.toNat = n / 64 % 64 + 128)
    (hd : d.toNat = n % 64 + 128) (hn : 65535 < n) (hvalid : n.isValidChar) :
    four? a b c d = some (Char.ofNat n) := by
  have hvalue : (a.toNat - 0xF0) * 262144 + (b.toNat - 0x80) * 4096 + (c.toNat - 0x80) * 64 +
      (d.toNat - 0x80) = n := by omega
  unfold Nat.isValidChar at hvalid
  rw [four?, hvalue, if_pos]
  simp only [Bool.and_eq_true, isTail_iff, ← UInt8.toNat_inj]
  refine ⟨⟨?_, by omega⟩, by omega⟩
  split
  · simp [UInt8.le_iff_toNat_le] at *
    omega
  · split <;> simp [isTail_iff, UInt8.le_iff_toNat_le] at * <;> omega

/-! ## Decoding a byte string -/

theorem first_of_lt (h : a.toNat < 128) (rest : Bytes) :
    first a rest = .scalar (Char.ofNat a.toNat) := by
  have : a < 0x80 := UInt8.lt_iff_toNat_lt.mpr h
  simp [first, this]

theorem bytes_first_append (a : UInt8) (rest : Bytes) :
    (first a rest).bytes ++ rest.drop ((first a rest).size - 1) = a :: rest := by
  have stray : (Glyph.stray a).bytes ++ rest.drop ((Glyph.stray a).size - 1) = a :: rest := rfl
  -- A character takes the bytes that it is encoded as.
  have scalar : ∀ (s : Char) (taken more : Bytes), rest = taken ++ more →
      ofChar s = a :: taken →
      (Glyph.scalar s).bytes ++ rest.drop ((Glyph.scalar s).size - 1) = a :: rest := by
    intro s taken more hrest hs
    simp [bytes, size, hs, hrest]
  unfold first
  split
  · rename_i ha
    have ha' : a.toNat < 128 := UInt8.lt_iff_toNat_lt.mp ha
    have hcode : (Glyph.scalar (Char.ofNat a.toNat)).code = a.toNat :=
      toNat_ofNat (.inl (by omega))
    refine scalar _ [] rest rfl ?_
    show (Glyph.scalar (Char.ofNat a.toNat)).bytes = [a]
    rw [bytes_of_code_lt (by omega), hcode, UInt8.ofNat_toNat]
  · split
    -- With three bytes ahead all lengths are tried, the shortest first.
    · rename_i b c d tail
      split
      · rename_i s hs
        simp only [Option.orElse_eq_orElse, Option.orElse_eq_or, Option.or_eq_some_iff] at hs
        rcases hs with h | ⟨-, h | ⟨-, h⟩⟩
        · exact scalar s [b] (c :: d :: tail) rfl (bytes_of_two? h)
        · exact scalar s [b, c] (d :: tail) rfl (bytes_of_three? h)
        · exact scalar s [b, c, d] tail rfl (bytes_of_four? h)
      · exact stray
    · rename_i b c
      split
      · rename_i s hs
        simp only [Option.orElse_eq_orElse, Option.orElse_eq_or, Option.or_eq_some_iff] at hs
        rcases hs with h | ⟨-, h⟩
        · exact scalar s [b] [c] rfl (bytes_of_two? h)
        · exact scalar s [b, c] [] rfl (bytes_of_three? h)
      · exact stray
    · rename_i b
      split
      · rename_i s hs
        exact scalar s [b] [] rfl (bytes_of_two? hs)
      · exact stray
    · exact stray

theorem first_cases (a : UInt8) (rest : Bytes) : first a rest = .stray a ∨
    ∃ x tail more, first a rest = .scalar x ∧ ofChar x = a :: tail ∧ rest = tail ++ more := by
  have happ := bytes_first_append a rest
  cases hg : first a rest with
  | stray b =>
    rw [hg] at happ
    exact .inl (congrArg stray (cons.inj happ).1)
  | scalar x =>
    obtain ⟨b, tail, hx⟩ := exists_cons_of_length_pos (size_pos (.scalar x))
    rw [hg, hx] at happ
    obtain ⟨rfl, hrest⟩ := cons.inj happ
    exact .inr ⟨x, tail, _, rfl, hx, hrest.symm⟩

theorem decodeFrom_eq (skip : Nat) (s : Bytes) : decodeFrom skip s = decode (s.drop skip) := by
  induction s generalizing skip with
  | nil => cases skip <;> rfl
  | cons a rest ih =>
    cases skip with
    | zero => rfl
    | succ skip => exact ih skip

@[simp] theorem decode_nil : decode [] = [] := rfl

/-- Decoding takes one glyph after the other. -/
theorem decode_cons (a : UInt8) (rest : Bytes) :
    decode (a :: rest) = first a rest :: decode (rest.drop ((first a rest).size - 1)) := by
  show first a rest :: decodeFrom _ rest = _
  rw [decodeFrom_eq]

theorem decode_cons_of_lt (h : a.toNat < 128) (rest : Bytes) :
    decode (a :: rest) = .scalar (Char.ofNat a.toNat) :: decode rest := by
  have hsize : (Glyph.scalar (Char.ofNat a.toNat)).size = 1 := by
    have hcode : (Glyph.scalar (Char.ofNat a.toNat)).code = a.toNat :=
      toNat_ofNat (.inl (by omega))
    rw [size, bytes_of_code_lt (by omega)]
    rfl
  rw [decode_cons, first_of_lt h, hsize]
  rfl

/-- Decoding follows the glyphs of a byte string: what holds of the empty one, and of a byte string
whenever it holds after its first glyph, holds of every byte string. -/
theorem decode_induction {P : Bytes → Prop} (nil : P [])
    (glyph : ∀ (g : Glyph) (s : Bytes), decode (g.bytes ++ s) = g :: decode s → P s →
      P (g.bytes ++ s)) (s : Bytes) : P s := by
  induction hn : s.length using Nat.strongRecOn generalizing s with
  | ind n ih =>
    cases s with
    | nil => exact nil
    | cons a rest =>
      have happ := bytes_first_append a rest
      have hdec := decode_cons a rest
      rw [← happ] at hdec
      rw [← happ]
      refine glyph _ _ hdec (ih _ ?_ _ rfl)
      rw [← hn, length_cons, length_drop]
      omega

/-- Decoding loses nothing. -/
theorem flatMap_bytes_decode (s : Bytes) : (decode s).flatMap bytes = s := by
  induction s using decode_induction with
  | nil => rfl
  | glyph g s hdec ih => rw [hdec, flatMap_cons, ih]

/-- There are at most as many glyphs as bytes. -/
theorem length_decode_le (s : Bytes) : (decode s).length ≤ s.length := by
  induction s using decode_induction with
  | nil => exact Nat.le_refl 0
  | glyph g s hdec ih =>
    have hpos : 0 < g.bytes.length := g.size_pos
    rw [hdec, length_cons, length_append]
    omega

/-! ## Cutting between glyphs -/

/-- A character is read from its bytes, whatever follows them. -/
theorem first_ofChar {x : Char} {tail : Bytes} (h : ofChar x = a :: tail) (t : Bytes) :
    first a (tail ++ t) = .scalar x := by
  have hvalid : x.toNat.isValidChar := x.valid
  rw [ofChar_eq] at h
  rw [← Char.ofNat_toNat x]
  -- The length of the encoding depends on the code point alone.
  generalize x.toNat = n at h hvalid
  have hlt : n < 0x110000 := by
    unfold Nat.isValidChar at hvalid
    omega
  have hlarge : 128 ≤ a.toNat → ¬ a < 0x80 := fun ha hlt =>
    absurd (UInt8.lt_iff_toNat_lt.mp hlt) (Nat.not_lt.mpr ha)
  split at h
  · obtain ⟨ha, rfl⟩ := cons.inj h
    have ha := toNat_of_eq ha (by omega)
    rw [first_of_lt (by omega), ha]
  unfold first
  split at h
  · obtain ⟨ha, rfl⟩ := cons.inj h
    have ha := toNat_of_eq ha (by omega)
    have htwo := @two?_eq_some a _ n (by omega) (toNat_of_eq rfl (by omega)) (by omega) (by omega)
    rw [if_neg (hlarge (by omega))]
    match t with
    | [] | [_] | _ :: _ :: _ => simp [htwo, -UInt8.ofNat_add]
  · split at h
    · obtain ⟨ha, rfl⟩ := cons.inj h
      have ha := toNat_of_eq ha (by omega)
      have hthree := @three?_eq_some a _ _ n (by omega) (toNat_of_eq rfl (by omega))
        (toNat_of_eq rfl (by omega)) (by omega) (by omega) hvalid
      rw [if_neg (hlarge (by omega))]
      match t with
      | [] | _ :: _ => simp [@two?_of_le a _ (by omega), hthree, -UInt8.ofNat_add]
    · obtain ⟨ha, rfl⟩ := cons.inj h
      have ha := toNat_of_eq ha (by omega)
      have hfour := @four?_eq_some a _ _ _ n (by omega) (toNat_of_eq rfl (by omega))
        (toNat_of_eq rfl (by omega)) (toNat_of_eq rfl (by omega)) (by omega) hvalid
      rw [if_neg (hlarge (by omega))]
      simp [@two?_of_le a _ (by omega), @three?_of_le a _ _ (by omega), hfour, -UInt8.ofNat_add]

theorem first_append_of_le {rest : Bytes}
    (h : (first a (rest ++ t)).size ≤ rest.length + 1) : first a (rest ++ t) = first a rest := by
  rcases first_cases a (rest ++ t) with hstray | ⟨x, tail, more, hx, htail, hrest⟩
  · rcases first_cases a rest with hstray' | ⟨x, tail, more, -, htail, rfl⟩
    · rw [hstray, hstray']
    · rw [append_assoc, first_ofChar htail, first_ofChar htail]
  · -- What lies behind the byte string could only have been part of a longer glyph.
    rw [hx, size, bytes, htail, length_cons] at h
    obtain ⟨more', rfl⟩ := List.prefix_of_prefix_length_le (hrest ▸ prefix_append tail more)
      (prefix_append rest t) (Nat.le_of_succ_le_succ h)
    rw [hx, first_ofChar htail]

/-- A text may be cut between two glyphs. -/
theorem decode_split {gs hs : List Glyph} (h : decode (s ++ t) = gs ++ hs)
    (hgs : gs.flatMap bytes = s) : decode s = gs ∧ decode t = hs := by
  induction gs generalizing s with
  | nil =>
    subst hgs
    exact ⟨rfl, h⟩
  | cons g gs ih =>
    rw [flatMap_cons] at hgs
    obtain ⟨a, rest, rfl⟩ := exists_cons_of_ne_nil (l := s) (by
      have := g.size_pos
      rintro rfl
      rw [Glyph.size, (append_eq_nil_iff.mp hgs).1] at this
      exact Nat.lt_irrefl 0 this)
    rw [cons_append, decode_cons, cons_append, cons.injEq] at h
    obtain ⟨rfl, h⟩ := h
    have hle : (first a (rest ++ t)).size ≤ rest.length + 1 := by
      have := congrArg length hgs
      rw [length_append, length_cons] at this
      exact Nat.le_trans (Nat.le_add_right _ _) (Nat.le_of_eq this)
    have hfirst := first_append_of_le hle
    have hpos := (first a (rest ++ t)).size_pos
    rw [hfirst] at h hgs hle hpos ⊢
    rw [drop_append_of_le_length (by omega)] at h
    have hrest := hgs.trans (bytes_first_append a rest).symm
    obtain ⟨hs, ht⟩ := ih h (append_cancel_left hrest)
    exact ⟨by rw [decode_cons, hs], ht⟩

/-- An offset at which no character goes on, where they are read from the beginning. -/
def IsCut (s : Bytes) (off : Nat) : Prop :=
  ∃ gs rest, decode s = gs ++ rest ∧ (gs.flatMap Glyph.bytes).length = off

theorem IsCut.decode_eq {off : Nat} (h : IsCut s off) :
    off ≤ s.length ∧ decode s = decode (s.take off) ++ decode (s.drop off) := by
  obtain ⟨gs, rest, hdecode, rfl⟩ := h
  have hs : s = gs.flatMap bytes ++ rest.flatMap bytes := by
    rw [← flatMap_append, ← hdecode, flatMap_bytes_decode]
  obtain ⟨hgs, hrest⟩ := decode_split (hs ▸ hdecode) rfl
  refine ⟨by simp [hs], ?_⟩
  rw [hs, take_left, drop_left, hgs, hrest, ← hs, hdecode]

theorem decode_ofChar (x : Char) (t : Bytes) :
    decode (ofChar x ++ t) = .scalar x :: decode t := by
  obtain ⟨a, tail, hx⟩ := exists_cons_of_length_pos (size_pos (.scalar x))
  have hx : ofChar x = a :: tail := hx
  rw [hx, cons_append, decode_cons, first_ofChar hx, size, bytes, hx, length_cons,
    Nat.add_sub_cancel, drop_left]

theorem ofString_eq (text : String) : ofString text = text.toList.flatMap ofChar := by
  rw [ofString, String.toUTF8, ← String.utf8Encode_toList]
  simp [utf8Encode]
  rfl

theorem decode_flatMap_ofChar (cs : List Char) (t : Bytes) :
    decode (cs.flatMap ofChar ++ t) = cs.map scalar ++ decode t := by
  induction cs with
  | nil => rfl
  | cons x cs ih => rw [flatMap_cons, append_assoc, decode_ofChar, ih, map_cons, cons_append]

/-- Text is read back from its bytes, whatever follows them. -/
theorem decode_ofString (text : String) (t : Bytes) :
    decode (ofString text ++ t) = decode (ofString text) ++ decode t := by
  have halone := decode_flatMap_ofChar text.toList []
  rw [append_nil, decode_nil, append_nil] at halone
  rw [ofString_eq, decode_flatMap_ofChar, halone]

/-! ## Where an ASCII byte follows -/

theorem le_of_mem_bytes (h : 128 ≤ g.code) : ∀ b ∈ g.bytes, 128 ≤ b.toNat := by
  cases g with
  | scalar c =>
    have hc : ¬ c.toNat ≤ 127 := by
      have : c.toNat = (Glyph.scalar c).code := rfl
      omega
    show ∀ b ∈ ofChar c, 128 ≤ b.toNat
    rw [ofChar_eq, if_neg hc]
    split
    · simp only [forall_mem_cons, UInt8.toNat_ofNat']
      exact ⟨by omega, by omega, by simp⟩
    · split
      · simp only [forall_mem_cons, UInt8.toNat_ofNat']
        exact ⟨by omega, by omega, by omega, by simp⟩
      · simp only [forall_mem_cons, UInt8.toNat_ofNat']
        exact ⟨by omega, by omega, by omega, by omega, by simp⟩
  | stray b => exact forall_mem_singleton.mpr h

theorem mem_bytes_iff (hb : b.toNat < 128) : b ∈ g.bytes ↔ g.code = b.toNat := by
  rcases Nat.lt_or_ge g.code 128 with hlt | hge
  · rw [bytes_of_code_lt hlt, mem_singleton, ← UInt8.toNat_inj, UInt8.toNat_ofNat',
      Nat.mod_eq_of_lt (by omega), eq_comm]
  · constructor
    · intro hmem
      have := le_of_mem_bytes hge b hmem
      omega
    · intro hcode
      omega

theorem first_append (a : UInt8) (rest : Bytes) (ht : ∀ b ∈ t.head?, b.toNat < 128) :
    first a (rest ++ t) = first a rest := by
  refine first_append_of_le ?_
  rcases first_cases a (rest ++ t) with hstray | ⟨x, tail, more, hx, htail, hrest⟩
  · rw [hstray]
    exact Nat.le_add_left 1 _
  rw [hx, size, bytes, htail, length_cons]
  rcases append_eq_append_iff.mp hrest with ⟨u, rfl, hu⟩ | ⟨u, rfl, -⟩
  · cases u with
    | nil => simp
    | cons b u =>
      -- An ASCII byte is a character of its own.
      have hb : b ∈ (Glyph.scalar x).bytes := by simp [bytes, htail]
      have hlt : b.toNat < 128 := ht b (by simp [hu])
      have hone := congrArg length (bytes_of_code_lt ((mem_bytes_iff hlt).mp hb ▸ hlt))
      simp [bytes, htail] at hone
  · simp

theorem decode_append (s : Bytes) (ht : ∀ b ∈ t.head?, b.toNat < 128) :
    decode (s ++ t) = decode s ++ decode t := by
  induction hn : s.length using Nat.strongRecOn generalizing s with
  | ind n ih =>
    cases s with
    | nil => rfl
    | cons a rest =>
      -- The first glyph lies within the first part.
      have hsize : (first a rest).size - 1 ≤ rest.length := by
        have := congrArg length (bytes_first_append a rest)
        rw [length_append, length_drop, length_cons] at this
        have : (first a rest).bytes.length = (first a rest).size := rfl
        omega
      rw [cons_append, decode_cons, decode_cons, first_append a rest ht,
        drop_append_of_le_length hsize, ih _ ?_ _ rfl]
      · rfl
      · rw [← hn, length_cons, length_drop]
        omega

def ascii (b : UInt8) : Glyph := .scalar (Char.ofNat b.toNat)

@[simp] theorem code_ascii (b : UInt8) : (ascii b).code = b.toNat := by
  have hb : b.toNat < 256 := b.toNat_lt
  exact toNat_ofNat (.inl (by omega))

theorem decode_append_of_last (hs : ∀ b ∈ s.getLast?, b.toNat < 128) (t : Bytes) :
    decode (s ++ t) = decode s ++ decode t := by
  rcases eq_nil_or_concat s with rfl | ⟨init, b, rfl⟩
  · rfl
  · have hb : b.toNat < 128 := hs b (by simp)
    rw [concat_eq_append, append_assoc, singleton_append,
      decode_append init (by simpa using hb), decode_append init (by simpa using hb),
      decode_cons_of_lt hb, decode_cons_of_lt hb, append_assoc]
    rfl

theorem decode_of_lt (h : ∀ b ∈ s, b.toNat < 128) : decode s = s.map ascii := by
  induction s with
  | nil => rfl
  | cons b s ih =>
    rw [forall_mem_cons] at h
    rw [decode_cons_of_lt h.1, ih h.2]
    rfl

end Glyph

end LuaLint
