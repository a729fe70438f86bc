import Mathlib.Data.List.Forall2
import LuaLint.Proofs.Parsing.Run
import LuaLint.Proofs.Syntax.Relocation

/-!
# Runs side by side

What the parser does depends on the kinds of the tokens and on the texts of literals; offsets and
names go into the tree as they are. So a stream of the same tokens, elsewhere and with other names,
is parsed to the same tree elsewhere, or both are refused. The rules of this module follow two
parsers through two such streams, token by token, and keep account of what the first one has taken
and of how much fuel that may need.

Main statements: `Parser.Twin.bind`, `Parser.Twin.restart`.
-/

namespace LuaLint

open List

variable {kind : TokenKind}

/-! ## Streams elsewhere -/

/-- The second token is the first one elsewhere. Only names may have another text. -/
structure Token.Follows (r : Relocation) (t t' : Token) : Prop where
  kind : t'.kind = t.kind
  pos : t'.pos = r.offset t.pos
  name : t.kind = .name → t'.text = r.name t.pos t.text
  text : t.kind ≠ .name → t'.text = t.text
  stop : t.kind ≠ .name → t'.stop = r.offset t.stop

/-- The second stream is the first one elsewhere. -/
structure Stream.Follows (r : Relocation) (s s' : Stream) : Prop where
  ahead : List.Forall₂ (Token.Follows r) s.ahead s'.ahead
  eof : s.eof.Follows r s'.eof

namespace Stream.Follows

variable {r : Relocation} {s s' : Stream}

theorem look (h : s.Follows r s') : s.look.Follows r s'.look :=
  ⟨by simpa using h.ahead, by simpa using h.eof⟩

theorem peek (h : s.Follows r s') : s.peek.Follows r s'.peek := by
  have hahead := h.ahead
  rw [peek_eq, peek_eq]
  revert hahead
  generalize s.ahead = ts, s'.ahead = ts'
  rintro (_ | ⟨ht, -⟩)
  · exact h.eof
  · exact ht

theorem advance (h : s.Follows r s') : s.advance.Follows r s'.advance := by
  have hahead := h.ahead
  refine ⟨?_, by simpa using h.eof⟩
  rw [ahead_advance, ahead_advance]
  revert hahead
  generalize s.ahead = ts, s'.ahead = ts'
  rintro (_ | ⟨-, hrest⟩)
  · exact .nil
  · exact hrest

end Stream.Follows

/-- A relocation and a vocabulary. -/
structure Passage extends r : Relocation where
  lawful : Word → Prop

/-- The passage to the same place. -/
def Passage.stay (lawful : Word → Prop) : Passage :=
  ⟨⟨id, fun _ name => name⟩, lawful⟩

theorem Stream.follows_stay (lawful : Word → Prop) (s : Stream) :
    s.Follows (Passage.stay lawful).r s := by
  have htoken : ∀ t : Token, t.Follows (Passage.stay lawful).r t := fun _ =>
    ⟨rfl, rfl, fun _ => rfl, fun _ => rfl, fun _ => rfl⟩
  exact ⟨forall₂_same.mpr fun t _ => htoken t, htoken s.eof⟩

theorem Token.Lawful.is {t : Token} {lawful : Word → Prop} (h : t.Lawful lawful)
    (hk : t.kind = kind) (hf : kind.IsFixed) : t.Is kind :=
  ⟨hk, by rw [← hk]; exact h.fixed (hk ▸ hf)⟩

/-! ## Runs that agree -/

namespace Parser

variable {m : Passage} {α β γ δ : Type} {s s₁ : Stream} {budget budget' : Nat}

/-- Two runs both fail, or both give a result. The first of them begins with a stream, and `Q`
relates the results, the tokens that it has taken and the token that comes next. It lacks fuel only
when `spent` holds. -/
inductive Agree (m : Passage) (s : Stream) (spent : Prop) (Q : α → β → List Token → Token → Prop) :
    Except ParseError (α × Stream) → Except ParseError (β × Stream) → Prop where
  | ok {a : α} {b : β} {ts : List Token} {s₁ s₁' : Stream} :
      s.Consumed s₁ ts → s₁.Follows m.r s₁' → Q a b ts s₁.peek →
      Agree m s spent Q (.ok (a, s₁)) (.ok (b, s₁'))
  | error {e e' : ParseError} : (e.fault = .exhausted → spent) →
      Agree m s spent Q (.error e) (.error e')

/-- A budget of fuel does not pay for all tokens, taken or still ahead, at sixteen units for
each. -/
def Spent (budget : Nat) (acc : List Token) (s : Stream) : Prop :=
  budget ≤ 16 * (acc.length + s.ahead.length)

/-- Two parsers agree on a lawful stream that begins with a certain token, and on that stream
elsewhere. The tokens `acc` have been taken before, and the fuel is paid from a budget. -/
def Twin (m : Passage) (budget : Nat) (first : Token → Prop) (acc : List Token) (p : Parser α)
    (q : Parser β) (Q : α → β → List Token → Token → Prop) : Prop :=
  ∀ s s', s.Lawful m.lawful → s.Follows m.r s' → first s.peek →
    Agree m s (Spent budget acc s) (fun a b ts next => Q a b (acc ++ ts) next) (p s) (q s')

abbrev Any (_ : Token) : Prop := True

/-- A parser gives elsewhere what it gives here, elsewhere. -/
abbrev Carries (m : Passage) (budget : Nat) (first : Token → Prop) (f : α → α) (p : Parser α)
    (P : α → List Token → Prop) : Prop :=
  Twin m budget first [] p p fun a b ts _ => P a ts ∧ b = f a

/-- A parser that is called behind some tokens may spend more than they have cost. -/
theorem Spent.mono {acc : List Token} (hle : budget ≤ budget' + 16 * acc.length)
    (h : Spent budget' [] s) : Spent budget acc s := by
  simp only [Spent, length_nil, Nat.zero_add] at *
  omega

/-- The tokens that a run has taken count as before, no longer ahead but taken. -/
theorem Agree.after {Q : α → β → List Token → Token → Prop} {acc ts : List Token}
    {x : Except ParseError (α × Stream)} {y : Except ParseError (β × Stream)}
    (hts : s.Consumed s₁ ts) (h : Agree m s₁ (Spent budget (acc ++ ts) s₁)
      (fun a b us next => Q a b (acc ++ ts ++ us) next) x y) :
    Agree m s (Spent budget acc s) (fun a b us next => Q a b (acc ++ us) next) x y := by
  cases h with
  | ok hus hfollows hQ => exact .ok (hts.trans hus) hfollows (by rwa [← append_assoc])
  | error hspent => exact .error (by simpa [Spent, hts.ahead, Nat.add_assoc] using hspent)

theorem exists_unexpected (want : Expectation) (s : Stream) :
    ∃ e, (unexpected want s : Except ParseError (α × Stream)) = .error e ∧
      e.fault ≠ .exhausted := by
  unfold unexpected
  split <;> exact ⟨_, rfl, by simp⟩

theorem head?_of_consumed {ts : List Token} (h : s.Consumed s₁ ts) :
    (ts ++ [s₁.peek]).head? = some s.peek := by
  rw [s.peek_eq, h.ahead]
  cases ts with
  | nil => simp [s₁.peek_eq, h.eof]
  | cons t ts => rfl

namespace Twin

variable {first : Token → Prop} {acc : List Token} {Q : γ → δ → List Token → Token → Prop}

/-! ## Sequences -/

section

variable {p : Parser γ} {q : Parser δ}

theorem mono {first' : Token → Prop} (h : Twin m budget first acc p q Q)
    (hfirst : ∀ t, first' t → first t) :
    Twin m budget first' acc p q Q :=
  fun s s' hs hfollows ht => h s s' hs hfollows (hfirst _ ht)

theorem afford (h : Twin m budget' first acc p q Q) (hle : budget ≤ budget') :
    Twin m budget first acc p q Q := by
  intro s s' hs hfollows ht
  have hagree := h s s' hs hfollows ht
  revert hagree
  generalize p s = x, q s' = y
  rintro (⟨hts, hrest, hQ⟩ | hspent)
  · exact .ok hts hrest hQ
  · exact .error fun he => Nat.le_trans hle (hspent he)

theorem any (h : Twin m budget Any acc p q Q) : Twin m budget first acc p q Q :=
  h.mono fun _ _ => trivial

theorem imp {Q' : γ → δ → List Token → Token → Prop} (h : Twin m budget' first [] p q Q)
    (hle : budget ≤ budget' + 16 * acc.length)
    (hQ : ∀ {a b ts next}, Q a b ts next → Q' a b (acc ++ ts) next) :
    Twin m budget first acc p q Q' := by
  intro s s' hs hfollows ht
  have hagree := h s s' hs hfollows ht
  revert hagree
  generalize p s = x, q s' = y
  rintro (⟨hts, hrest, hR⟩ | hspent)
  · exact .ok hts hrest (hQ hR)
  · exact .error fun he => (hspent he).mono hle

/-- The tokens that are taken from here on begin with the one that comes next. -/
theorem restart {start : Token} (h : Twin m (budget - 16 * acc.length) Any [] p q fun a b ts next =>
      (ts ++ [next]).head? = some start → Q a b (acc ++ ts) next) :
    Twin m budget (· = start) acc p q Q := by
  rintro s s' hs hfollows rfl
  have hagree := h s s' hs hfollows trivial
  revert hagree
  generalize p s = x, q s' = y
  rintro (⟨hts, hrest, hQ⟩ | hspent)
  · exact .ok hts hrest (hQ (head?_of_consumed hts))
  · exact .error fun he => (hspent he).mono (by omega)

theorem headed {start : Token} (h : Twin m budget Any [] p q Q) :
    Twin m budget (· = start) [] p q fun a b ts next =>
      Q a b ts next ∧ (ts ++ [next]).head? = some start :=
  restart (h.imp (by simp) fun hQ hhead => ⟨hQ, hhead⟩)

end

theorem stop {a : γ} {b : δ} (h : ∀ t, first t → Q a b acc t) :
    Twin m budget first acc (pure a) (pure b) Q :=
  fun s _ _ hfollows ht => .ok (.refl s) hfollows (by rw [append_nil]; exact h _ ht)

protected theorem pure {a : γ} {b : δ} (h : ∀ {next}, Q a b acc next) :
    Twin m budget first acc (pure a) (pure b) Q :=
  stop fun _ _ => h

protected theorem failAt {pos pos' : Nat} {fault fault' : SyntaxFault}
    (h : fault = .exhausted → budget ≤ 16 * acc.length) :
    Twin m budget first acc (failAt pos fault) (failAt pos' fault') Q :=
  fun _ _ _ _ _ => .error fun he => Nat.le_trans (h he) (by grind)

protected theorem unexpected (want : Expectation) :
    Twin m budget first acc (unexpected want) (unexpected want) Q := by
  intro s s' _ _ _
  obtain ⟨e, he, hfault⟩ := exists_unexpected (α := γ) want s
  obtain ⟨e', he', -⟩ := exists_unexpected (α := δ) want s'
  rw [he, he']
  exact .error fun h => absurd h hfault

protected theorem bind {p : Parser α} {q : Parser β} {k : α → Parser γ} {l : β → Parser δ}
    {R : α → β → List Token → Token → Prop} (hp : Twin m budget' first [] p q R)
    (hle : budget ≤ budget' + 16 * acc.length)
    (hk : ∀ a b ts {next}, R a b ts next → Twin m budget (· = next) (acc ++ ts) (k a) (l b) Q) :
    Twin m budget first acc (p >>= k) (q >>= l) Q := by
  intro s s' hs hfollows ht
  rw [run_bind, run_bind]
  have hagree := hp s s' hs hfollows ht
  revert hagree
  generalize p s = x, q s' = y
  -- Either both have failed already, or what is left of the streams is alike again.
  rintro (⟨hts, hrest, hR⟩ | hspent)
  · exact (hk _ _ _ hR _ _ (hs.of_consumed hts) hrest rfl).after hts
  · exact .error fun he => (hspent he).mono hle

/-! ## Single tokens -/

/-- A look at the next token changes nothing that two parsers depend on. -/
theorem looked {p : Parser γ} {q : Parser δ} {s' : Stream} (hs : s.Lawful m.lawful)
    (hfollows : s.Follows m.r s') (h : Twin m budget first acc p q Q) (hfirst : first s.look.peek) :
    Agree m s (Spent budget acc s) (fun a b ts next => Q a b (acc ++ ts) next) (p s.look)
      (q s'.look) := by
  have hlook := Stream.Consumed.look s
  refine (?_ : Agree m s.look _ _ _ _).after hlook
  rw [append_nil]
  exact h _ _ (hs.of_consumed hlook) hfollows.look hfirst

theorem peek {k : TokenKind → Parser γ} {l : TokenKind → Parser δ}
    (h : ∀ t, first t → Twin m budget (·.kind = t.kind) acc (k t.kind) (l t.kind) Q) :
    Twin m budget first acc (peekKind >>= k) (peekKind >>= l) Q := by
  intro s s' hs hfollows ht
  rw [bind_peekKind, bind_peekKind, hfollows.peek.kind]
  exact looked hs hfollows (h _ ht) (by rw [Stream.peek_look])

protected theorem peekKind {k : TokenKind → Parser γ} {l : TokenKind → Parser δ}
    (h : ∀ kind, Twin m budget (·.kind = kind) acc (k kind) (l kind) Q) :
    Twin m budget first acc (peekKind >>= k) (peekKind >>= l) Q :=
  peek fun t _ => h t.kind

protected theorem peekPos {k : Nat → Parser γ} {l : Nat → Parser δ}
    (h : ∀ t, Twin m budget (· = t) acc (k t.pos) (l (m.offset t.pos)) Q) :
    Twin m budget first acc (peekPos >>= k) (peekPos >>= l) Q := by
  intro s s' hs hfollows _
  rw [bind_peekPos, bind_peekPos, hfollows.peek.pos]
  exact looked hs hfollows (h _) s.peek_look

section

variable {k : Token → Parser γ} {l : Token → Parser δ}

theorem takeOf (hne : kind ≠ .eof)
    (h : ∀ t t', t.kind = kind → t.Lawful m.lawful → t.Follows m.r t' →
      Twin m budget Any (acc ++ [t]) (k t) (l t') Q) :
    Twin m budget (·.kind = kind) acc (take >>= k) (take >>= l) Q := by
  rintro s s' hs hfollows rfl
  have htaken := hs.consumed_advance hne
  exact (h _ _ rfl (hs.peek_lawful hne) hfollows.peek _ _ (hs.of_consumed htaken) hfollows.advance
    trivial).after htaken

theorem requireOf {want want' : Expectation} (hne : kind ≠ .eof)
    (h : ∀ t t', first t → t.kind = kind → t.Lawful m.lawful → t.Follows m.r t' →
      Twin m budget Any (acc ++ [t]) (k t) (l t') Q) :
    Twin m budget first acc (require kind want >>= k) (require kind want' >>= l) Q := by
  intro s s' hs hfollows ht
  rw [run_bind, run_bind, require, require, hfollows.peek.kind]
  split
  · rename_i hk
    have htaken := hs.consumed_advance (hk ▸ hne)
    exact (h _ _ ht hk (hs.peek_lawful (hk ▸ hne)) hfollows.peek _ _ (hs.of_consumed htaken)
      hfollows.advance trivial).after htaken
  · obtain ⟨e, he, hfault⟩ := exists_unexpected (α := Token) want s
    obtain ⟨e', he', -⟩ := exists_unexpected (α := Token) want' s'
    rw [he, he']
    exact .error fun h => absurd h hfault

protected theorem ident {k : Ident → Parser γ} {l : Ident → Parser δ}
    (h : ∀ t, t.kind = .name → m.lawful (.name t.ident.name) →
      Twin m budget Any (acc ++ [t]) (k t.ident) (l (t.ident.relocate m.r)) Q) :
    Twin m budget first acc (ident >>= k) (ident >>= l) Q := by
  have hident : ∀ {ε : Type} (f : Ident → Parser ε), ident >>= f =
      require .name (.token .name) >>= fun t => f t.ident := fun f => by
    simp only [ident, expect, bind_assoc, pure_bind]
    rfl
  rw [hident, hident]
  refine requireOf (by simp) fun t t' _ hk hlawful ht => ?_
  have htoken : t'.ident = t.ident.relocate m.r := by
    simp only [Token.ident, Ident.relocate, ht.pos, ht.name hk]
  rw [htoken]
  exact h t hk (hlawful.name hk)

variable [hfixed : Fact kind.IsFixed]

theorem ne_eof : kind ≠ .eof := by
  rintro rfl
  exact hfixed.out

protected theorem take
    (h : ∀ t t', t.Is kind → t.Follows m.r t' → Twin m budget Any (acc ++ [t]) (k t) (l t') Q) :
    Twin m budget (·.kind = kind) acc (take >>= k) (take >>= l) Q :=
  takeOf ne_eof fun t t' hk hlawful => h t t' (hlawful.is hk hfixed.out)

protected theorem expect
    (h : ∀ t t', t.Is kind → t.Follows m.r t' → Twin m budget Any (acc ++ [t]) (k t) (l t') Q) :
    Twin m budget first acc (expect kind >>= k) (expect kind >>= l) Q :=
  requireOf ne_eof fun t t' _ hk hlawful => h t t' (hlawful.is hk hfixed.out)

protected theorem close {opener : String} {opened opened' : Nat} {k : Nat → Parser γ}
    {l : Nat → Parser δ}
    (h : ∀ t, first t → t.Is kind →
      Twin m budget Any (acc ++ [t]) (k t.pos) (l (m.offset t.pos)) Q) :
    Twin m budget first acc (expectClose kind opener opened >>= k)
      (expectClose kind opener opened' >>= l) Q := by
  simp only [expectClose, bind_assoc, pure_bind]
  refine requireOf ne_eof fun t t' hfirst hk hlawful ht => ?_
  rw [ht.pos]
  exact h t hfirst (hlawful.is hk hfixed.out)

protected theorem accept {k : Bool → Parser γ} {l : Bool → Parser δ}
    (hyes : ∀ t, t.Is kind → Twin m budget Any (acc ++ [t]) (k true) (l true) Q)
    (hno : Twin m budget Any acc (k false) (l false) Q) :
    Twin m budget first acc (accept kind >>= k) (accept kind >>= l) Q := by
  intro s s' hs hfollows _
  rw [run_bind, run_bind, accept, accept, hfollows.peek.kind]
  split
  · rename_i hk
    exact Twin.take (fun t _ ht _ => hyes t ht) s s' hs hfollows hk
  · exact looked hs hfollows hno trivial

end

end Twin

/-- A parser that carries its results elsewhere, and then another one. -/
theorem Carries.next {first : Token → Prop} {acc : List Token}
    {Q : γ → δ → List Token → Token → Prop}
    {f : α → α} {p : Parser α} {P : α → List Token → Prop} {k : α → Parser γ} {l : α → Parser δ}
    (hp : Carries m budget' Any f p P) (hle : budget ≤ budget' + 16 * acc.length)
    (hk : ∀ a ts, P a ts → Twin m budget Any (acc ++ ts) (k a) (l (f a)) Q) :
    Twin m budget first acc (p >>= k) (p >>= l) Q := by
  refine (hp.mono fun _ _ => trivial).bind hle ?_
  rintro a _ ts _ ⟨hP, rfl⟩
  exact (hk a ts hP).mono fun _ _ => trivial

end Parser

end LuaLint
