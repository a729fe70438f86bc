import LuaLint.Proofs.Lexing.Lexemes

/-!
# What the lexer takes for a token

All functions of the lexer take some glyphs and emit a token of some kind from them, with a text
that fits the kind. Where a token ends depends on very little of what follows it: on the glyph right
behind it, and behind a bracket on whether a long bracket goes on there. Of a letter behind the
token only this is seen, that it is one, unless the token is a numeral; but a numeral with a letter
behind it is an error.

So two scanners read the same token if they see the same glyphs up to its end, and alike ones behind
it. They are run side by side, function by function, and compared only when the end is known.

Main statements: `Lexer.lockstep_dispatch`, `Lexer.takes_cases`.
-/

namespace LuaLint

open List Scanner Ascii Blank Glyph

variable {c : Char} {gs gs' closing : List Glyph} {level m n : Nat} {kind : TokenKind}
  {x y : Token × Scanner} {g : Glyph}

namespace Lexer

/-! ## What follows a token -/

/-- What follows two tokens looks alike: the same glyph comes next, or two letters do, and either a
long bracket of one level goes on in both or none in either. -/
structure Alike (gs gs' : List Glyph) : Prop where
  next : gs'.head? = gs.head? ∨
    (∃ g ∈ gs.head?, Ascii.isNameStart g.code = true) ∧
      ∃ g ∈ gs'.head?, Ascii.isNameStart g.code = true
  level : longLevel? gs' = longLevel? gs

/-- What follows two tokens begins with the same glyph. -/
def SameHead (gs gs' : List Glyph) : Prop := gs'.head? = gs.head?

/-- A relation between what follows two tokens respects a class of codes: the next glyph belongs to
the class in both cases or in neither. -/
def Respects (B : List Glyph → List Glyph → Prop) (p : Nat → Bool) : Prop :=
  ∀ gs gs', B gs gs' → gs'.head?.map (fun g => p g.code) = gs.head?.map fun g => p g.code

theorem respects_sameHead (p : Nat → Bool) : Respects SameHead p := by
  intro gs gs' h
  rw [h]

theorem respects_alike {p : Nat → Bool} {b : Bool}
    (hp : ∀ code, isNameStart code = true → p code = b) : Respects Alike p := by
  intro gs gs' h
  rcases h.next with hhead | ⟨⟨g, hg, hstart⟩, g', hg', hstart'⟩
  · rw [hhead]
  · rw [Option.mem_def.mp hg, Option.mem_def.mp hg', Option.map_some, Option.map_some, hp _ hstart,
      hp _ hstart']

theorem respects_isName : Respects Alike isName :=
  respects_alike (b := true) fun code h => by simp [isName, h]

theorem respects_char (hc : isNameStart c.toNat = false) : Respects Alike (· == c.toNat) := by
  refine respects_alike (b := false) fun code h => ?_
  rw [beq_eq_false_iff_ne]
  rintro rfl
  rw [hc] at h
  cases h

theorem respects_line : Respects Alike (· != 10) := by
  refine respects_alike (b := true) fun code h => ?_
  rw [bne_iff_ne]
  rintro rfl
  cases h

theorem longLevel?_cons (g : Glyph) (gs : List Glyph) : longLevel? (g :: gs) =
    if g.code = 61 then (longLevel? gs).map (· + 1)
    else if g.code = 91 then some 0 else none := by
  by_cases hg : g.code = 61
  · simp only [longLevel?, hg, takeWhile_cons, beq_self_eq_true, if_true, length_cons,
      drop_succ_cons]
    split
    · split <;> rfl
    · rfl
  · simp [longLevel?, hg]

theorem longLevel?_append (h : longLevel? gs' = longLevel? gs) :
    ∀ front : List Glyph, longLevel? (front ++ gs') = longLevel? (front ++ gs)
  | [] => h
  | g :: front => by
    rw [cons_append, cons_append, longLevel?_cons, longLevel?_cons, longLevel?_append h front]

theorem Alike.append (h : Alike gs gs') (front : List Glyph) :
    Alike (front ++ gs) (front ++ gs') := by
  refine ⟨?_, longLevel?_append h.level front⟩
  cases front with
  | nil => exact h.next
  | cons g front => exact .inl rfl

theorem lt_length_of_longLevel? (h : longLevel? gs = some level) : level < gs.length := by
  induction gs generalizing level with
  | nil => cases h
  | cons g gs ih =>
    rw [longLevel?_cons] at h
    split at h
    · obtain ⟨below, hbelow, rfl⟩ := Option.map_eq_some_iff.mp h
      exact Nat.succ_lt_succ (ih hbelow)
    · split at h
      · cases h
        exact Nat.succ_pos _
      · cases h

theorem bytes_of_longLevel? (h : longLevel? gs = some level) :
    (gs.take (level + 1)).flatMap bytes = List.replicate level 61 ++ [91] := by
  induction gs generalizing level with
  | nil => cases h
  | cons g gs ih =>
    rw [longLevel?_cons] at h
    split at h
    · rename_i hg
      obtain ⟨below, hbelow, rfl⟩ := Option.map_eq_some_iff.mp h
      rw [take_succ_cons, flatMap_cons, ih hbelow, bytes_of_code_lt (by omega), hg]
      rfl
    · split at h
      · rename_i hg
        cases h
        rw [take_succ_cons, take_zero, flatMap_cons, bytes_of_code_lt (by omega), hg]
        rfl
      · cases h

theorem longLevel?_of_bytes {rest : Bytes}
    (h : gs.flatMap bytes = List.replicate level 61 ++ 91 :: rest) (tail : List Glyph) :
    longLevel? (gs ++ tail) = some level := by
  induction level generalizing gs with
  | zero =>
    obtain ⟨g, gs, rfl, hcode, -⟩ := cons_of_flatMap h (by decide)
    rw [cons_append, longLevel?_cons, hcode]
    rfl
  | succ level ih =>
    rw [replicate_succ, cons_append] at h
    obtain ⟨g, gs, rfl, hcode, hrest⟩ := cons_of_flatMap h (by decide)
    rw [cons_append, longLevel?_cons, hcode, ih hrest]
    rfl

/-! ## Near scanners -/

/-- Two scanners have taken the same glyphs and see the same `n` glyphs ahead, and what they see
behind those is related. -/
structure Near (B : List Glyph → List Glyph → Prop) (n : Nat) (s s' : Scanner) : Prop where
  taken : s'.taken = s.taken
  last : s'.last = s.last
  front : s'.rest.take n = s.rest.take n
  back : B (s.rest.drop n) (s'.rest.drop n)

namespace Near

variable {B : List Glyph → List Glyph → Prop} {m n : Nat} {s s' : Scanner} {p : Nat → Bool}

theorem advance (h : Near B (m + n) s s') : Near B n (s.advanceBy m) (s'.advanceBy m) := by
  have hfront : s'.rest.take m = s.rest.take m := by
    have := congrArg (take m) h.front
    rwa [take_take, take_take, Nat.min_eq_left (Nat.le_add_right m n)] at this
  refine ⟨?_, ?_, ?_, ?_⟩
  · rw [advanceBy_taken, advanceBy_taken, hfront, h.taken]
  · rw [last_advanceBy, last_advanceBy, hfront, h.last]
  · have := congrArg (drop m) h.front
    rwa [drop_take, drop_take, Nat.add_sub_cancel_left, ← advanceBy_rest, ← advanceBy_rest] at this
  · rw [advanceBy_rest, advanceBy_rest, drop_drop, drop_drop]
    exact h.back

theorem test (hp : Respects B p) (h : Near B n s s') :
    s'.rest.head?.map (fun g => p g.code) = s.rest.head?.map fun g => p g.code := by
  cases n with
  | zero => exact hp _ _ h.back
  | succ n =>
    have hhead := congrArg head? h.front
    simp only [head?_take, Nat.succ_ne_zero, if_false] at hhead
    rw [hhead]

theorem countWhile (hp : Respects B p) (h : Near B (s.countWhile p + n) s s') :
    s'.countWhile p = s.countWhile p := by
  have hall := s.forall_mem_take_countWhile p
  have hlength : (s.rest.take (s.countWhile p)).length = s.countWhile p := by
    rw [take_countWhile]
    rfl
  have hfront : s'.rest.take (s.countWhile p) = s.rest.take (s.countWhile p) := by
    have := congrArg (take (s.countWhile p)) h.front
    rwa [take_take, take_take, Nat.min_eq_left (Nat.le_add_right _ n)] at this
  have hnext := h.advance.test hp
  rw [advanceBy_rest, advanceBy_rest] at hnext
  rw [← hfront] at hall hlength
  refine (countWhile_append (take_append_drop _ s'.rest).symm hall ?_).trans hlength
  -- The class ends for the second scanner where it ends for the first one.
  intro g hg
  rw [Option.mem_def.mp hg, Option.map_some, eq_comm, Option.map_eq_some_iff] at hnext
  obtain ⟨g₀, hg₀, hcode⟩ := hnext
  rw [← hcode]
  exact head_drop_countWhile p s g₀ hg₀

end Near

/-! ## Side by side -/

/-- The first of two scanners emits a token with a text that fits its kind, of which more is known
unless it is an error. If the scanners are near up to the end of the token, the second one emits the
same. -/
def Lockstep (B : List Glyph → List Glyph → Prop) (Q : TokenKind → List Glyph → Prop)
    (s s' : Scanner) (x y : Token × Scanner) : Prop :=
  ∃ kind n, n ≤ s.rest.length ∧ x = emit kind (s.advanceBy n) ∧
    Lexeme kind (s.advanceBy n).text ∧ ((∀ cause, kind ≠ .error cause) →
      Q kind (s.rest.drop n) ∧ (Near B n s s' → y = emit kind (s'.advanceBy n)))

namespace Lockstep

variable {B : List Glyph → List Glyph → Prop} {Q : TokenKind → List Glyph → Prop}
  {s s' : Scanner} {x y z z' : Token × Scanner} {p : Nat → Bool}

theorem here (hlex : Lexeme kind s.text) (h : Q kind s.rest) :
    Lockstep B Q s s' (emit kind s) (emit kind s') :=
  ⟨kind, 0, Nat.zero_le _, rfl, hlex, fun _ => ⟨h, fun _ => rfl⟩⟩

theorem fail (cause : LexicalError) : Lockstep B Q s s' (Lexer.fail cause s) y :=
  ⟨.error cause, 0, Nat.zero_le _, rfl, trivial, fun h => absurd rfl (h cause)⟩

theorem of_advance (hm : m ≤ s.rest.length)
    (h : Lockstep B Q (s.advanceBy m) (s'.advanceBy m) x z)
    (hy : ∀ n, Near B (m + n) s s' → y = z) : Lockstep B Q s s' x y := by
  obtain ⟨kind, n, hn, hx, hlex, hkind⟩ := h
  rw [advanceBy_rest, length_drop] at hn
  rw [advanceBy_add] at hx hlex
  refine ⟨kind, m + n, by omega, hx, hlex, fun herror => ?_⟩
  obtain ⟨hQ, hz⟩ := hkind herror
  rw [advanceBy_rest, drop_drop] at hQ
  refine ⟨hQ, fun hnear => ?_⟩
  rw [hy n hnear, hz hnear.advance, advanceBy_add]

/-- The glyph is taken by both scanners or by neither. -/
theorem acceptIf (hp : Respects B p) {f : Scanner → Token × Scanner}
    (hyes : ∀ g rest, s.rest = g :: rest → p g.code = true →
      Lockstep B Q (s.advanceBy 1) (s'.advanceBy 1) (f (s.advanceBy 1)) (f (s'.advanceBy 1)))
    (hno : s.rest.head?.map (fun g => p g.code) ≠ some true → Lockstep B Q s s' z z') :
    Lockstep B Q s s'
      (match s.acceptIf p with
        | none => z
        | some s₁ => f s₁)
      (match s'.acceptIf p with
        | none => z'
        | some s₁ => f s₁) := by
  by_cases hhead : s.rest.head?.map (fun g => p g.code) = some true
  · rw [s.acceptIf_eq, if_pos hhead]
    obtain ⟨g, hg, hpg⟩ := Option.map_eq_some_iff.mp hhead
    obtain ⟨rest, hrest⟩ := head?_eq_some_iff.mp hg
    have hlength : 1 ≤ s.rest.length := by simp [hrest]
    refine of_advance hlength (hyes g rest hrest hpg) fun n hnear => ?_
    rw [s'.acceptIf_eq, hnear.test hp, if_pos hhead]
  · rw [s.acceptIf_eq, if_neg hhead]
    refine of_advance (Nat.zero_le _) (hno hhead) fun n hnear => ?_
    rw [s'.acceptIf_eq, hnear.test hp, if_neg hhead]

/-- A glyph that may be missing, and whatever comes behind it. -/
theorem acceptOptional (hp : Respects B p) {f : Scanner → Token × Scanner}
    (h : ∀ s s', Lockstep B Q s s' (f s) (f s')) :
    Lockstep B Q s s' (f ((s.acceptIf p).getD s)) (f ((s'.acceptIf p).getD s')) := by
  have hmatch := acceptIf hp (fun _ _ _ _ => h (s.advanceBy 1) (s'.advanceBy 1)) fun _ => h s s'
  revert hmatch
  cases s.acceptIf p <;> cases s'.acceptIf p <;> exact id

theorem acceptWhile (hp : Respects B p)
    (h : Lockstep B Q (s.acceptWhile p) (s'.advanceBy (s.countWhile p)) x z)
    (hy : s'.countWhile p = s.countWhile p → y = z) : Lockstep B Q s s' x y := by
  have hlength : s.countWhile p ≤ s.rest.length := (List.takeWhile_prefix _).length_le
  exact of_advance hlength h fun n hnear => hy (hnear.countWhile hp)

end Lockstep

/-! ## Numerals -/

/-- A numeral ends before something that could not continue a name. -/
def EndsNumber (kind : TokenKind) (gs : List Glyph) : Prop :=
  kind = .number ∧ ∀ g ∈ gs.head?, Ascii.isName g.code = false

/-- A name ends before something that could not continue it. -/
def EndsName (kind : TokenKind) (gs : List Glyph) : Prop :=
  kind = .name → ∀ g ∈ gs.head?, Ascii.isName g.code = false

variable {s s' : Scanner}

theorem lockstep_numberEnd (s s' : Scanner) :
    Lockstep SameHead EndsNumber s s' (numberEnd s) (numberEnd s') := by
  unfold numberEnd
  simp only
  by_cases hcount : s.countWhile isName = 0
  · rw [if_pos hcount]
    have hhead := s.head_drop_countWhile isName
    rw [hcount, drop_zero] at hhead
    refine .of_advance (Nat.zero_le _) (.here trivial ⟨rfl, hhead⟩) fun n hnear => ?_
    have hcount' : s'.countWhile isName = 0 := by
      rw [← hcount] at hnear
      exact (hnear.countWhile (respects_sameHead _)).trans hcount
    rw [if_pos hcount']
    rfl
  · rw [if_neg hcount]
    exact .acceptWhile (respects_sameHead _) (.fail _) fun _ => rfl

theorem lockstep_exponent (markers : Nat → Bool) (s s' : Scanner) :
    Lockstep SameHead EndsNumber s s' (exponent markers s) (exponent markers s') := by
  -- The digits of the exponent, behind its sign.
  have digits : ∀ s s' : Scanner, Lockstep SameHead EndsNumber s s'
      (if s.countWhile isDigit = 0 then malformed s
        else numberEnd (s.acceptWhile isDigit))
      (if s'.countWhile isDigit = 0 then malformed s'
        else numberEnd (s'.acceptWhile isDigit)) := by
    intro s s'
    by_cases hcount : s.countWhile isDigit = 0
    · rw [if_pos hcount]
      exact .fail _
    · rw [if_neg hcount]
      refine .acceptWhile (respects_sameHead isDigit) (lockstep_numberEnd _ _) fun hcount' => ?_
      rw [hcount', if_neg hcount, acceptWhile, hcount']
  refine .acceptIf (respects_sameHead _) (fun _ _ _ _ => ?_) fun _ => lockstep_numberEnd s s'
  exact .acceptOptional (respects_sameHead _) digits

theorem lockstep_hexTail (whole : Nat) (s s' : Scanner) :
    Lockstep SameHead EndsNumber s s' (hexTail whole s) (hexTail whole s') := by
  refine .acceptIf (respects_sameHead _) (fun _ _ _ _ => ?_) ?_
  · by_cases hcount : whole + (s.advanceBy 1).countWhile isHexDigit = 0
    · rw [if_pos hcount]
      exact .fail _
    · rw [if_neg hcount]
      refine .acceptWhile (respects_sameHead isHexDigit) (lockstep_exponent _ _ _)
        fun hcount' => ?_
      rw [hcount', if_neg hcount, acceptWhile, hcount']
  · intro _
    split
    · exact .fail _
    · exact lockstep_exponent _ _ _

theorem lockstep_hexNumber (s s' : Scanner) :
    Lockstep SameHead EndsNumber s s' (hexNumber s) (hexNumber s') := by
  unfold hexNumber
  refine .acceptWhile (respects_sameHead isHexDigit) (lockstep_hexTail _ _ _) fun hcount => ?_
  rw [acceptWhile, hcount]

theorem lockstep_fraction (s s' : Scanner) :
    Lockstep SameHead EndsNumber s s' (fraction s) (fraction s') := by
  unfold fraction
  refine .acceptWhile (respects_sameHead isDigit) (lockstep_exponent _ _ _) fun hcount => ?_
  rw [acceptWhile, hcount]

theorem lockstep_decimal (s s' : Scanner) :
    Lockstep SameHead EndsNumber s s' (decimal s) (decimal s') := by
  refine .acceptWhile (respects_sameHead isDigit)
    (.acceptIf (respects_sameHead _) (fun _ _ _ _ => lockstep_fraction _ _)
      fun _ => lockstep_exponent _ _ _)
    fun hcount => ?_
  simp only [decimal, acceptWhile, hcount]
  rfl

theorem lockstep_number (s s' : Scanner) :
    Lockstep SameHead EndsNumber s s' (number s) (number s') := by
  unfold number
  by_cases hlast : s.last = 48
  · simp only [if_pos hlast]
    refine .of_advance (Nat.zero_le _)
      (.acceptIf (respects_sameHead _) (fun _ _ _ _ => lockstep_hexNumber _ _)
        fun _ => lockstep_decimal _ _)
      fun n hnear => ?_
    rw [if_pos (hnear.last.trans hlast)]
    rfl
  · simp only [if_neg hlast]
    refine .of_advance (Nat.zero_le _) (lockstep_decimal _ _) fun n hnear => ?_
    rw [if_neg (hnear.last ▸ hlast)]
    rfl

/-- A numeral is never followed by a letter, so what follows need only look alike. -/
theorem Lockstep.of_number (h : Lockstep SameHead EndsNumber s s' x y) :
    Lockstep Alike EndsName s s' x y := by
  obtain ⟨kind, n, hn, hx, hlex, hkind⟩ := h
  refine ⟨kind, n, hn, hx, hlex, fun herror => ?_⟩
  obtain ⟨⟨hnumber, hnext⟩, hy⟩ := hkind herror
  refine ⟨fun hname => ?_, fun hnear => hy ⟨hnear.taken, hnear.last, hnear.front, ?_⟩⟩
  · rw [hnumber] at hname
    cases hname
  · rcases hnear.back.next with hhead | ⟨⟨g, hg, hstart⟩, -⟩
    · exact hhead
    · have hnot := hnext g hg
      simp [isName, hstart] at hnot

/-! ## Brackets and strings -/

theorem take_longEnd : ∀ {gs : List Glyph}, (longEnd closing gs).2 = true →
      ∃ body, gs.take (longEnd closing gs).1 = body ++ closing
  | [], h => nomatch h
  | g :: gs, h => by
    by_cases hprefix : closing.isPrefixOf (g :: gs) = true
    · refine ⟨[], ?_⟩
      rw [longEnd, if_pos hprefix, nil_append]
      exact (prefix_iff_eq_take.mp (List.isPrefixOf_iff_prefix.mp hprefix)).symm
    · rw [longEnd, if_neg hprefix] at h ⊢
      obtain ⟨body, hbody⟩ := take_longEnd h
      exact ⟨g :: body, by rw [take_succ_cons, hbody, cons_append]⟩

theorem length_le_longEnd (h : (longEnd closing gs).2 = true) :
    closing.length ≤ (longEnd closing gs).1 := by
  obtain ⟨body, hbody⟩ := take_longEnd h
  have hlength := congrArg length hbody
  rw [length_take, length_append] at hlength
  omega

theorem longEnd_congr (hne : closing ≠ []) :
    ∀ {gs gs' : List Glyph}, (longEnd closing gs).2 = true →
      gs'.take (longEnd closing gs).1 = gs.take (longEnd closing gs).1 →
      longEnd closing gs' = longEnd closing gs
  | [], _, h, _ => nomatch h
  | g :: gs, gs', h, htake => by
    have hprefix : closing.isPrefixOf gs' = closing.isPrefixOf (g :: gs) := by
      have hfront := congrArg (take closing.length) htake
      rw [take_take, take_take, Nat.min_eq_left (length_le_longEnd h)] at hfront
      rw [Bool.eq_iff_iff, List.isPrefixOf_iff_prefix, List.isPrefixOf_iff_prefix,
        prefix_iff_eq_take, prefix_iff_eq_take, hfront]
    have hpos := Nat.lt_of_lt_of_le (length_pos_iff.mpr hne) (length_le_longEnd h)
    cases gs' with
    | nil =>
      rw [take_nil, eq_comm, take_eq_nil_iff] at htake
      simp at htake
      omega
    | cons g' gs' =>
      by_cases hstart : closing.isPrefixOf (g :: gs) = true
      · simp [longEnd, hprefix, hstart]
      · simp only [longEnd, hprefix, hstart] at h htake ⊢
        simp only [Bool.false_eq_true, if_false, take_succ_cons, cons.injEq] at h htake ⊢
        rw [longEnd_congr hne h htake.2]

theorem stringEnd_congr {quote : Nat} {mode : StringMode} (h : (stringEnd quote mode gs).2 = true)
    (htake : gs'.take (stringEnd quote mode gs).1 = gs.take (stringEnd quote mode gs).1) :
    stringEnd quote mode gs' = stringEnd quote mode gs := by
  induction gs generalizing mode gs' with
  | nil =>
    rw [stringEnd] at h
    cases h
  | cons g gs ih =>
    rcases stringEnd_cons quote mode g with ⟨-, -, hend⟩ | ⟨mode', -, hgo⟩
    · rw [hend] at htake ⊢
      cases gs' with
      | nil => cases htake
      | cons g' gs' =>
        obtain ⟨rfl, -⟩ := cons.inj htake
        exact hend gs'
    · rw [hgo] at h htake ⊢
      cases gs' with
      | nil => cases htake
      | cons g' gs' =>
        obtain ⟨rfl, htail⟩ := cons.inj htake
        rw [hgo, ih h htail]

theorem Lockstep.extent {cause : LexicalError} {find : List Glyph → Nat × Bool}
    (hkind : kind ≠ .name)
    (hlex : (find s.rest).2 = true → Lexeme kind (s.advanceBy (find s.rest).1).text)
    (hle : ∀ gs, (find gs).1 ≤ gs.length)
    (hfind : ∀ {gs gs'}, (find gs).2 = true → gs'.take (find gs).1 = gs.take (find gs).1 →
      find gs' = find gs) : Lockstep Alike EndsName s s'
      (if (find s.rest).2 then emit kind (s.advanceBy (find s.rest).1)
        else Lexer.fail cause (s.advanceBy (find s.rest).1))
      (if (find s'.rest).2 then emit kind (s'.advanceBy (find s'.rest).1)
        else Lexer.fail cause (s'.advanceBy (find s'.rest).1)) := by
  by_cases hclosed : (find s.rest).2 = true
  · rw [if_pos hclosed]
    refine ⟨kind, _, hle _, rfl, hlex hclosed, fun _ =>
      ⟨fun hname => absurd hname hkind, fun hnear => ?_⟩⟩
    rw [hfind hclosed hnear.front, if_pos hclosed]
  · rw [if_neg hclosed]
    exact .of_advance (hle _) (.fail _) fun _ _ => rfl

theorem longEnd_le (closing : List Glyph) : ∀ gs : List Glyph, (longEnd closing gs).1 ≤ gs.length
  | [] => Nat.le_refl 0
  | g :: gs => by
    by_cases hprefix : closing.isPrefixOf (g :: gs) = true
    · rw [longEnd, if_pos hprefix]
      exact (List.isPrefixOf_iff_prefix.mp hprefix).length_le
    · rw [longEnd, if_neg hprefix]
      exact Nat.succ_le_succ (longEnd_le closing gs)

theorem stringEnd_le (quote : Nat) (gs : List Glyph) :
    ∀ mode, (stringEnd quote mode gs).1 ≤ gs.length := by
  induction gs with
  | nil => intro mode; rw [stringEnd]; exact Nat.le_refl 0
  | cons g gs ih =>
    intro mode
    rcases stringEnd_cons quote mode g with ⟨-, -, hend⟩ | ⟨mode', -, hgo⟩
    · rw [hend]
      exact Nat.succ_le_succ (Nat.zero_le _)
    · rw [hgo]
      exact Nat.succ_le_succ (ih mode')

theorem lockstep_longBody (kind : TokenKind) (hkind : kind ≠ .name) {s : Scanner}
    (hlex : ∀ body, Lexeme kind (s.text ++ body ++ Literal.closing level)) (cause : LexicalError)
    (s' : Scanner) : Lockstep Alike EndsName s s'
      (longBody kind cause level s) (longBody kind cause level s') := by
  refine .extent hkind (fun hclosed => ?_) (longEnd_le _) (longEnd_congr (by simp [longClose]))
  obtain ⟨body, hbody⟩ := take_longEnd hclosed
  rw [advanceBy_text, hbody, flatMap_append, flatMap_longClose, ← append_assoc]
  exact hlex _

theorem lockstep_string {quote : UInt8} (hquote : quote = 34 ∨ quote = 39) {s : Scanner}
    (hs : s.text = [quote]) (s' : Scanner) :
    Lockstep Alike EndsName s s' (string quote.toNat s) (string quote.toNat s') := by
  refine .extent (by simp) (fun hclosed => ?_) (fun gs => stringEnd_le quote.toNat gs .plain)
    stringEnd_congr
  have hlength := length_take_of_le (stringEnd_le quote.toNat s.rest .plain)
  rw [advanceBy_text, hs]
  refine IsQuoted.mk hquote ?_
  rw [stringEnd_congr hclosed (by rw [take_take, Nat.min_self]), hlength, ← hclosed]

theorem Near.longLevel? (h : Near Alike n s s') :
    Lexer.longLevel? s'.rest = Lexer.longLevel? s.rest := by
  rw [← take_append_drop n s.rest, ← take_append_drop n s'.rest, h.front]
  exact longLevel?_append h.back.level _

theorem Lockstep.longLevel? {f : Nat → Scanner → Token × Scanner}
    (hyes : ∀ level, Lexer.longLevel? s.rest = some level →
      ∀ s', Lockstep Alike EndsName (s.advanceBy (level + 1)) s' (f level (s.advanceBy (level + 1)))
        (f level s')) (hno : Lexer.longLevel? s.rest = none → Lockstep Alike EndsName s s' x y) :
    Lockstep Alike EndsName s s'
      (match Lexer.longLevel? s.rest with
        | some level => f level (s.advanceBy (level + 1))
        | none => x)
      (match Lexer.longLevel? s'.rest with
        | some level => f level (s'.advanceBy (level + 1))
        | none => y) := by
  cases hlevel : Lexer.longLevel? s.rest with
  | none =>
    refine .of_advance (Nat.zero_le _) (hno hlevel) fun n hnear => ?_
    rw [hnear.longLevel?, hlevel]
  | some level =>
    refine .of_advance (lt_length_of_longLevel? hlevel) (hyes level hlevel _) fun n hnear => ?_
    rw [hnear.longLevel?, hlevel]

/-! ## Tokens -/

theorem lockstep_sign {sign : Sign} {s : Scanner} (h : s.text = Bytes.ofString sign.spelling)
    (s' : Scanner) : Lockstep Alike EndsName s s' (Lexer.sign sign s) (Lexer.sign sign s') :=
  .here h fun hname => nomatch hname

theorem text_advanceBy_one {rest : List Glyph} (hrest : s.rest = g :: rest)
    (hg : (g.code == c.toNat) = true) (hc : c.toNat < 128) :
    (s.advanceBy 1).text = s.text ++ [UInt8.ofNat c.toNat] := by
  have hcode : g.code = c.toNat := beq_iff_eq.mp hg
  have hbytes : g.bytes = [UInt8.ofNat g.code] := bytes_of_code_lt (hcode ▸ hc)
  rw [advanceBy_text, hrest, take_succ_cons, take_zero, flatMap_singleton, hbytes, hcode]

theorem lockstep_longest {short : Sign} {s : Scanner} (hs : s.text = Bytes.ofString short.spelling)
    (s' : Scanner) : ∀ longer : List (Char × Sign),
      (∀ p ∈ longer, isNameStart p.1.toNat = false ∧ p.1.toNat < 128 ∧
        Bytes.ofString p.2.spelling = Bytes.ofString short.spelling ++ [UInt8.ofNat p.1.toNat]) →
      Lockstep Alike EndsName s s' (longest short longer s) (longest short longer s')
  | [], _ => lockstep_sign hs s'
  | (c, long) :: longer, h => by
    obtain ⟨hc, hlt, hlong⟩ := h (c, long) (mem_cons_self ..)
    have hshorter := lockstep_longest hs s' longer fun d hd => h d (mem_cons_of_mem _ hd)
    refine .acceptIf (respects_char hc) (fun g rest hrest hg => lockstep_sign ?_ _)
      fun _ => hshorter
    rw [text_advanceBy_one hrest hg hlt, hs, hlong]

theorem isComment_line {s : Scanner} (front : Bytes) (hs : s.text = 45 :: 45 :: front)
    (hfront : 10 ∉ front)
    (h : ∀ level rest gs, gs <+: s.rest →
      front ++ gs.flatMap bytes ≠ Literal.opening level ++ rest) :
    IsComment (s.acceptWhile (· != 10)).text := by
  have hline := s.forall_mem_take_countWhile (· != 10)
  rw [acceptWhile, advanceBy_text, hs]
  refine .line (not_mem_append hfront fun hmem => ?_) fun level rest =>
    h level rest _ (List.take_prefix _ _)
  obtain ⟨g, hg, hbyte⟩ := mem_flatMap.mp hmem
  have hcode := hline g hg
  rw [(mem_bytes_iff (by decide)).mp hbyte] at hcode
  exact absurd hcode (by decide)

theorem lockstep_comment {s : Scanner} (hs : s.text = [45, 45]) (s' : Scanner) :
    Lockstep Alike EndsName s s' (comment s) (comment s') := by
  have line : ∀ s s' : Scanner, IsComment (s.acceptWhile (· != 10)).text →
      Lockstep Alike EndsName s s'
      (emit .comment (s.acceptWhile (· != 10))) (emit .comment (s'.acceptWhile (· != 10))) := by
    intro s s' hlex
    refine .acceptWhile respects_line (.here hlex fun hname => nomatch hname) fun hcount => ?_
    rw [acceptWhile, hcount]
  refine .acceptIf (respects_char (by decide)) (fun g rest hrest hg => ?_) fun hhead => line s s' ?_
  · have htext := text_advanceBy_one hrest hg (by decide)
    rw [hs] at htext
    refine .longLevel? (fun level hlevel s' => ?_) fun hlevel => line _ _ ?_
    · refine lockstep_longBody .comment (by simp) (fun body => ?_) _ s'
      rw [advanceBy_text, htext, bytes_of_longLevel? hlevel]
      exact @IsComment.long level body
    · -- What follows the bracket does not complete it.
      refine isComment_line [91] htext (by decide) fun level rest gs hgs heq => ?_
      obtain ⟨tail, htail⟩ := hgs
      have hopen := longLevel?_of_bytes ((cons.inj heq).2.trans (append_assoc _ _ _)) tail
      rw [htail, hlevel] at hopen
      cases hopen
  · refine isComment_line [] hs (by simp) fun level rest gs hgs heq => hhead ?_
    obtain ⟨tail, htail⟩ := hgs
    obtain ⟨g, gs, rfl, hcode, -⟩ := cons_of_flatMap heq (by decide)
    rw [← htail, cons_append, head?_cons, Option.map_some, hcode]
    rfl

theorem lockstep_bracket {s : Scanner} (hs : s.text = Bytes.ofString "[") (s' : Scanner) :
    Lockstep Alike EndsName s s' (bracket s) (bracket s') :=
  .longLevel? (fun _ _ _ => lockstep_longBody .longString (by simp) (fun _ => trivial) _ _)
    fun _ => lockstep_sign hs _

theorem lockstep_dots {s : Scanner} (hs : s.text = Bytes.ofString ".") (s' : Scanner) :
    Lockstep Alike EndsName s s' (dots s) (dots s') := by
  -- One character is looked at: a second dot, or a digit, or neither.
  have hdots : ∀ s : Scanner, dots s =
      match s.acceptChar '.' with
      | none => if s.rest.head?.map (fun g => isDigit g.code) = some true then fraction s
        else sign .dot s
      | some s₁ => longest .concat [('.', .ellipsis)] s₁ := by
    intro s
    unfold dots peek?
    cases s.acceptChar '.' <;> cases s.rest <;> simp
  have hdigit : Respects Alike isDigit := by
    refine respects_alike (b := false) fun code hstart => ?_
    simp only [isNameStart, isDigit, Bool.or_eq_true, Bool.and_eq_true, decide_eq_true_eq,
      beq_iff_eq, Bool.and_eq_false_iff, decide_eq_false_iff_not] at hstart ⊢
    omega
  rw [hdots, hdots]
  refine .acceptIf (respects_char (by decide)) (fun g rest hrest hg => ?_) ?_
  · refine lockstep_longest ?_ _ _ (by decide)
    rw [text_advanceBy_one hrest hg (by decide), hs]
    decide
  · intro _
    by_cases hhead : s.rest.head?.map (fun g => isDigit g.code) = some true
    · rw [if_pos hhead]
      refine .of_advance (Nat.zero_le _) (lockstep_fraction _ _).of_number fun n hnear => ?_
      rw [hnear.test hdigit, if_pos hhead]
      rfl
    · rw [if_neg hhead]
      refine .of_advance (Nat.zero_le _) (lockstep_sign hs _) fun n hnear => ?_
      rw [hnear.test hdigit, if_neg hhead]
      rfl

theorem lexeme_acceptWhile (hs : s.taken = [g]) (hstart : isNameStart g.code = true) :
    Lexeme (.ofName (s.acceptWhile isName).text) (s.acceptWhile isName).text := by
  have hnat : (UInt8.ofNat g.code).toNat = g.code := by
    have := isNameStart_lt hstart
    rw [UInt8.toNat_ofNat']
    omega
  have hall := s.forall_mem_take_countWhile isName
  have htext : (s.acceptWhile isName).text = UInt8.ofNat g.code ::
      (s.rest.take (s.countWhile isName)).map fun g => UInt8.ofNat g.code := by
    rw [acceptWhile, advanceBy_text,
      flatMap_bytes_of_codes_lt (fun g' hg' => isName_lt (hall g' hg')), text, hs]
    simp [bytes_of_code_lt (isNameStart_lt hstart)]
  rw [htext]
  refine lexeme_ofName (by rwa [hnat]) ?_
  intro c hc
  obtain ⟨g', hg', rfl⟩ := mem_map.mp hc
  have := isName_lt (hall g' hg')
  rw [UInt8.toNat_ofNat', Nat.mod_eq_of_lt (by omega)]
  exact hall g' hg'

theorem lockstep_word {s : Scanner} (hs : s.taken = [g]) (s' : Scanner) :
    Lockstep Alike EndsName s s' (word g.code s) (word g.code s') := by
  unfold word
  split
  · exact (lockstep_number s s').of_number
  split
  · rename_i hstart
    have hlength : s.countWhile isName ≤ s.rest.length := (List.takeWhile_prefix _).length_le
    refine ⟨_, s.countWhile isName, hlength, rfl, lexeme_acceptWhile hs hstart, fun _ =>
      ⟨fun _ => s.head_drop_countWhile isName, fun hnear => ?_⟩⟩
    have hcount := hnear.countWhile (n := 0) respects_isName
    have htaken : (s'.advanceBy (s.countWhile isName)).taken =
        (s.advanceBy (s.countWhile isName)).taken := (hnear.advance (n := 0)).taken
    simp only [acceptWhile, hcount, text, htaken]
  · exact .fail _

/-- Whatever the first glyph is, two scanners read the token in lockstep. -/
theorem lockstep_dispatch {s : Scanner} (hs : s.taken = [g]) (s' : Scanner) :
    Lockstep Alike EndsName s s' (dispatch g.code s) (dispatch g.code s') := by
  -- Where a sign is possible, the glyph taken so far is an ASCII character.
  have htext : ∀ c : Char, Char.ofNat g.code = c → c.toNat < 128 →
      s.text = [UInt8.ofNat c.toNat] := by
    intro c hc hlt
    have hcode := code_of_ofNat hc
    rw [text, hs, ← hcode, ← bytes_of_code_lt (hcode ▸ hlt)]
    simp
  unfold dispatch
  split <;> rename_i hc
  · -- A dash begins a comment, or is a sign.
    refine .acceptIf (respects_char (by decide)) (fun _ _ hrest hg => lockstep_comment ?_ _)
      fun _ => lockstep_sign (htext _ hc (by decide)) _
    rw [text_advanceBy_one hrest hg (by decide), htext _ hc (by decide)]
    rfl
  all_goals first
    | exact lockstep_sign (htext _ hc (by decide)) s'
    | exact lockstep_longest (htext _ hc (by decide)) s' _ (by decide)
    | exact lockstep_bracket (htext _ hc (by decide)) s'
    | exact lockstep_dots (htext _ hc (by decide)) s'
    | exact lockstep_string (.inl rfl) (htext _ hc (by decide)) s'
    | exact lockstep_string (.inr rfl) (htext _ hc (by decide)) s'
    | exact lockstep_word hs s'

/-! ## Reading a token -/

/-- A scanner that begins a token at a mark, before some glyphs. -/
structure At (s : Scanner) (m : Mark) (rest : List Glyph) : Prop where
  fresh : s.Fresh
  here : s.here = m
  rest : s.rest = rest

theorem next_blank (hblank : ∀ g ∈ s.rest, isLuaSpace g.code = true) :
    (next s).1 = ⟨.eof, [], s.rest.foldl Mark.after s.here⟩ ∧
      At (next s).2 (s.rest.foldl Mark.after s.here) [] := by
  have hskip : s.acceptWhile isLuaSpace = s.advanceBy s.rest.length :=
    acceptWhile_append (append_nil _).symm hblank (by simp)
  have hpeek : (s.advanceBy s.rest.length).ignore.peek? = none := by
    simp [peek?, ignore]
  have hnext : next s = emit .eof (s.advanceBy s.rest.length).ignore := by
    simp only [next, hskip, hpeek]
  rw [hnext]
  refine ⟨?_, fresh_ignore _, ?_, ?_⟩ <;>
    simp [emit, ignore, text]

/-- Reading a token skips some blanks, takes some glyphs and stops before others. -/
structure Takes (s : Scanner) (kind : TokenKind) (blanks gs rest : List Glyph) : Prop where
  token : (next s).1 = ⟨kind, gs.flatMap Glyph.bytes, blanks.foldl Mark.after s.here⟩
  after : At (next s).2 (gs.foldl Mark.after (blanks.foldl Mark.after s.here)) rest

section Reading

variable {blanks gs rest : List Glyph} {g : Glyph} {kind : TokenKind}

/-- The scanner that has skipped the blanks and taken the first glyph of a token. -/
def begun (s : Scanner) (blanks : List Glyph) : Scanner :=
  (s.advanceBy blanks.length).ignore.advanceBy 1

theorem next_eq_dispatch (hrest : s.rest = blanks ++ g :: rest)
    (hblanks : ∀ b ∈ blanks, isLuaSpace b.code = true)
    (hg : isLuaSpace g.code = false) : next s = dispatch g.code (begun s blanks) := by
  have hskip : s.acceptWhile isLuaSpace = s.advanceBy blanks.length :=
    acceptWhile_append hrest hblanks (by simpa using hg)
  have hpeek : (s.advanceBy blanks.length).ignore.peek? = some g.code := by
    have : (s.advanceBy blanks.length).ignore.rest = g :: rest := rest_advanceBy hrest
    rw [peek?, this]
    rfl
  unfold next
  simp only [hskip, hpeek]
  rfl

theorem takes_of_dispatch (hrest : s.rest = blanks ++ (g :: gs) ++ rest)
    (hblanks : ∀ b ∈ blanks, isLuaSpace b.code = true)
    (hg : isLuaSpace g.code = false)
    (h : dispatch g.code (begun s blanks) = emit kind ((begun s blanks).advanceBy gs.length)) :
    Takes s kind blanks (g :: gs) rest := by
  rw [append_assoc] at hrest
  have hs₀ := (s.advanceBy blanks.length).fresh_ignore
  have hrest₀ : (s.advanceBy blanks.length).ignore.rest = g :: gs ++ rest :=
    rest_advanceBy hrest
  have hhere : (s.advanceBy blanks.length).ignore.here = blanks.foldl Mark.after s.here := by
    refine (s.advanceBy_here _).trans ?_
    rw [hrest, take_left]
  have hnext := next_eq_dispatch hrest hblanks hg
  rw [h, begun, advanceBy_add, Nat.add_comm, ← length_cons, hs₀.emit_eq, hrest₀, take_left,
    hhere] at hnext
  refine ⟨by rw [hnext], ?_⟩
  rw [hnext]
  refine ⟨fresh_ignore _, ?_, ?_⟩
  · refine (advanceBy_here _ _).trans ?_
    rw [hrest₀, take_left, hhere]
  · exact rest_advanceBy hrest₀

theorem taken_begun (hrest : s.rest = blanks ++ g :: rest) : (begun s blanks).taken = [g] := by
  have : (s.advanceBy blanks.length).ignore.rest = g :: rest := rest_advanceBy hrest
  rw [begun, advanceBy_taken, this]
  rfl

theorem rest_begun (hrest : s.rest = blanks ++ g :: rest) : (begun s blanks).rest = rest := by
  have : (s.advanceBy blanks.length).ignore.rest = g :: rest := rest_advanceBy hrest
  rw [begun, advanceBy_rest, this]
  rfl

theorem last_begun (hrest : s.rest = blanks ++ g :: rest) : (begun s blanks).last = g.code := by
  have : (s.advanceBy blanks.length).ignore.rest = g :: rest := rest_advanceBy hrest
  rw [begun, last_advanceBy, this]
  rfl

theorem near_begun {B : List Glyph → List Glyph → Prop} {ahead ahead' : List Glyph}
    (hs : s.rest = blanks ++ g :: ahead) (hs' : s'.rest = blanks ++ g :: ahead')
    (hfront : ahead'.take n = ahead.take n) (hback : B (ahead.drop n) (ahead'.drop n)) :
    Near B n (begun s blanks) (begun s' blanks) := by
  refine ⟨?_, ?_, ?_, ?_⟩
  · rw [taken_begun hs, taken_begun hs']
  · rw [last_begun hs, last_begun hs']
  · rw [rest_begun hs, rest_begun hs', hfront]
  · rw [rest_begun hs, rest_begun hs']
    exact hback

theorem emit_inj {kind' : TokenKind} (hm : m ≤ s.rest.length) (hn : n ≤ s.rest.length)
    (h : emit kind (s.advanceBy m) = emit kind' (s.advanceBy n)) : kind = kind' ∧ m = n := by
  refine ⟨congrArg (fun x => x.1.kind) h, ?_⟩
  have hlength : (s.advanceBy m).rest.length = (s.advanceBy n).rest.length :=
    congrArg (fun x => x.2.rest.length) h
  rw [advanceBy_rest, advanceBy_rest, length_drop, length_drop] at hlength
  omega

/-- Reading a token, by what it takes. Unless the token is an error, every scanner reads the same
one that sees the same glyphs up to its end and alike ones behind it. -/
theorem takes_cases (s : Scanner) : (∀ g ∈ s.rest, isLuaSpace g.code = true) ∨
    ∃ kind blanks gs rest, s.rest = blanks ++ gs ++ rest ∧ gs ≠ [] ∧
      (∀ b ∈ blanks, isLuaSpace b.code = true) ∧ Lexeme kind (gs.flatMap bytes) ∧
      ((∀ cause, kind ≠ .error cause) → EndsName kind rest ∧
        ∀ s' rest', s'.rest = blanks ++ gs ++ rest' → Alike rest rest' →
          Takes s' kind blanks gs rest') ∧
      Takes s kind blanks gs rest := by
  have hblanks := s.forall_mem_take_countWhile isLuaSpace
  have hsplit := take_append_drop (s.countWhile isLuaSpace) s.rest
  have hhead := s.head_drop_countWhile isLuaSpace
  generalize s.rest.take (s.countWhile isLuaSpace) = blanks at hblanks hsplit
  cases hdrop : s.rest.drop (s.countWhile isLuaSpace) with
  | nil =>
    rw [hdrop, append_nil] at hsplit
    exact .inl (hsplit ▸ hblanks)
  | cons g ahead =>
    right
    rw [hdrop] at hsplit hhead
    have hg := hhead g rfl
    have hrest := rest_begun hsplit.symm
    have hlockstep := lockstep_dispatch (taken_begun hsplit.symm)
    obtain ⟨kind, n, hn, hemit, hlex, -⟩ := hlockstep (begun s blanks)
    rw [advanceBy_text, text, taken_begun hsplit.symm, hrest] at hlex
    have hlength : (ahead.take n).length = n := by
      rw [length_take, ← hrest]
      exact Nat.min_eq_left hn
    have hahead : s.rest = blanks ++ (g :: ahead.take n) ++ ahead.drop n := by
      rw [append_assoc, cons_append, take_append_drop, hsplit]
    refine ⟨kind, blanks, g :: ahead.take n, ahead.drop n, hahead, cons_ne_nil _ _, hblanks,
      by simpa using hlex, fun herror => ?_,
      takes_of_dispatch hahead hblanks hg (by rw [hlength]; exact hemit)⟩
    -- Any other scanner is compared with this one, whose token ends at `n`.
    have hother : ∀ s', EndsName kind (ahead.drop n) ∧
        (Near Alike n (begun s blanks) (begun s' blanks) →
          dispatch g.code (begun s' blanks) = emit kind ((begun s' blanks).advanceBy n)) := by
      intro s'
      obtain ⟨kind', n', hn', hemit', -, hkind⟩ := hlockstep (begun s' blanks)
      obtain ⟨rfl, rfl⟩ := emit_inj hn hn' (hemit.symm.trans hemit')
      rw [hrest] at hkind
      exact hkind herror
    refine ⟨(hother s).1, fun s' rest' hs' halike => ?_⟩
    refine takes_of_dispatch hs' hblanks hg ?_
    rw [hlength]
    refine (hother s').2 ?_
    rw [append_assoc, cons_append] at hs'
    refine near_begun hsplit.symm hs' ?_ ?_
    · rw [take_append_of_le_length (Nat.le_of_eq hlength.symm), take_take, Nat.min_self]
    · rwa [drop_append_of_le_length (Nat.le_of_eq hlength.symm),
        drop_eq_nil_of_le (Nat.le_of_eq hlength), nil_append]

end Reading

end Lexer

end LuaLint
