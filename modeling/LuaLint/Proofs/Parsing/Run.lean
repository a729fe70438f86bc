import LuaLint.Syntax.Parser
import LuaLint.Proofs.Grammar.Reading

/-!
# Runs of the parser

What a run of a parser does to its token stream. A stream reads from the lexer when it is asked for
a token, and it collects comments and the ranges of code tokens on the way. What it has collected
once all its tokens are taken does not depend on when it is asked. So this is an invariant of every
request, and with it of every parser.

Main statements: `Stream.Consumed.look`, `Stream.Lawful.consumed_advance`.
-/

namespace LuaLint

/-! ## Lawful tokens -/

def TokenKind.IsFixed : TokenKind → Prop
  | .keyword _ | .sign _ => True
  | _ => False

/-- A token whose text fits its kind. The words of names and literals belong to a vocabulary. -/
structure Token.Lawful (lawful : Word → Prop) (t : Token) : Prop where
  fixed : t.kind.IsFixed → t.text = Bytes.ofString t.kind.label
  name : t.kind = .name → lawful (.name t.text)
  number : t.kind = .number → lawful (.number t.text)
  string : ∀ value, t.Denotes value → lawful (.string t.text value)

/-! ## What is ahead of a stream -/

/-- The comments among tokens, given the line on which the last code token before them ends. -/
def Parser.comments : Option Nat → List Token → List Comment
  | _, [] => []
  | lastLine, t :: rest =>
    match t.kind with
    | .comment => ⟨t.pos, t.text, lastLine = some t.mark.line⟩ :: comments lastLine rest
    | .hashBang | .error _ => comments lastLine rest
    | _ => comments (some t.lastLine) rest

/-- The ranges of tokens, without those of errors. -/
def Parser.ranges : List Token → List Span
  | [] => []
  | t :: rest =>
    match t.kind with
    | .error _ => ranges rest
    | _ => ⟨t.pos, t.stop⟩ :: ranges rest

namespace Stream

variable {s s' s₁ s₂ : Stream} {ts us : List Token} {lawful : Word → Prop}

/-- The code tokens that are still to be taken, without the end token. -/
def ahead (s : Stream) : List Token := s.seen.toList ++ s.unread.filter (·.kind.isCode)

/-- The comments that the stream has collected once all its tokens are taken. -/
def allComments (s : Stream) : List Comment :=
  s.comments.reverse ++ Parser.comments s.lastLine (s.seen.toList ++ s.unread)

/-- The ranges that the stream has collected once all its tokens are taken. -/
def allTokens (s : Stream) : List Span := s.tokens.reverse ++ Parser.ranges s.ahead

/-- The stream `s'` is what is left of `s` after the tokens `ts`. -/
structure Consumed (s s' : Stream) (ts : List Token) : Prop where
  ahead : s.ahead = ts ++ s'.ahead
  eof : s'.eof = s.eof
  comments : s'.allComments = s.allComments
  tokens : s'.allTokens = s.allTokens

namespace Consumed

theorem refl (s : Stream) : Consumed s s [] := ⟨rfl, rfl, rfl, rfl⟩

theorem trans (h₁ : Consumed s s₁ ts) (h₂ : Consumed s₁ s₂ us) : Consumed s s₂ (ts ++ us) where
  ahead := by rw [h₁.ahead, h₂.ahead, List.append_assoc]
  eof := h₂.eof.trans h₁.eof
  comments := h₂.comments.trans h₁.comments
  tokens := h₂.tokens.trans h₁.tokens

/-- A comment goes from those ahead to those collected, an interpreter line goes away, and a code
token is ahead whether it has been seen or not. Only at the end no token is seen. -/
theorem readOn (s : Stream) (hs : s.seen = none) (ts : List Token) :
    Consumed { s with unread := ts } (s.readOn ts) [] ∧
      ((s.readOn ts).seen = none → (s.readOn ts).unread = []) := by
  induction ts generalizing s with
  | nil => exact ⟨refl _, fun _ => rfl⟩
  | cons t rest ih =>
    rw [Stream.readOn]
    split <;> rename_i hk
    · obtain ⟨hrest, hend⟩ := ih { s with comments := _ :: s.comments } hs
      refine ⟨(?_ : Consumed _ _ []).trans hrest, hend⟩
      constructor <;>
        simp [Stream.ahead, allComments, allTokens, Parser.comments, hs, hk, TokenKind.isCode]
    · obtain ⟨hrest, hend⟩ := ih s hs
      refine ⟨(?_ : Consumed _ _ []).trans hrest, hend⟩
      constructor <;>
        simp [Stream.ahead, allComments, allTokens, Parser.comments, hs, hk, TokenKind.isCode]
    · rename_i hcomment
      have hcode : t.kind.isCode = true := by
        cases h : t.kind <;> first | rfl | contradiction
      refine ⟨?_, fun h => by cases h⟩
      constructor <;> simp [Stream.ahead, allComments, allTokens, hs, hcode]

/-- Looking ahead takes nothing. -/
theorem look (s : Stream) : Consumed s s.look [] := by
  unfold Stream.look
  split
  · exact refl s
  · exact (readOn s ‹_› s.unread).1

end Consumed

@[simp] theorem ahead_look (s : Stream) : s.look.ahead = s.ahead := (Consumed.look s).ahead.symm

@[simp] theorem eof_look (s : Stream) : s.look.eof = s.eof := (Consumed.look s).eof

/-- A look finds no token only at the end. -/
theorem unread_look (h : s.look.seen = none) : s.look.unread = [] := by
  unfold look at h ⊢
  split
  · rename_i hs
    simp [hs] at h
  · rename_i hs
    simp only [hs] at h
    exact (Consumed.readOn s hs s.unread).2 h

@[simp] theorem look_look (s : Stream) : s.look.look = s.look := by
  rw [look]
  split
  · rfl
  · rename_i h
    rw [unread_look h, readOn, ← unread_look h]

@[simp] theorem peek_look (s : Stream) : s.look.peek =
    s.peek := by rw [peek, look_look, eof_look, peek]

@[simp] theorem advance_look (s : Stream) : s.look.advance = s.advance := by
  rw [advance, look_look, eof_look, advance]

theorem peek_eq (s : Stream) : s.peek = s.ahead.headD s.eof := by
  rw [← ahead_look, peek, ahead]
  cases h : s.look.seen with
  | none => simp [unread_look h]
  | some t => rfl

@[simp] theorem eof_advance (s : Stream) : s.advance.eof = s.eof := by
  unfold advance record
  split
  · simp
  · split <;> simp

theorem ahead_advance (s : Stream) : s.advance.ahead = s.ahead.tail := by
  rw [← ahead_look s]
  unfold advance record ahead
  split
  · rename_i h
    simp [h, unread_look h]
  · rename_i h
    split <;> simp [h]

/-- The token that is taken goes from those ahead to those collected. -/
theorem collected_advance (h : ∀ t ∈ s.ahead, t.kind.isCode = true) :
    s.advance.allComments = s.allComments ∧ s.advance.allTokens = s.allTokens := by
  rw [← ahead_look] at h
  rw [← (Consumed.look s).comments, ← (Consumed.look s).tokens]
  unfold advance
  split
  · exact ⟨rfl, rfl⟩
  · rename_i t hseen
    have hcode := h t (by simp [ahead, hseen])
    unfold record
    cases hk : t.kind <;>
      simp_all [allComments, allTokens, ahead, Parser.comments, Parser.ranges, TokenKind.isCode]

/-! ## Lawful streams -/

/-- A stream of lawful code tokens that ends in the end token. -/
structure Lawful (lawful : Word → Prop) (s : Stream) : Prop where
  eof : s.eof.kind = .eof
  code : ∀ t ∈ s.ahead, t.kind.isCode = true ∧ t.kind ≠ .eof
  tokens : ∀ t ∈ s.ahead, t.Lawful lawful

namespace Lawful

variable (hs : s.Lawful lawful)
include hs

theorem of_consumed (h : Consumed s s' ts) : s'.Lawful lawful where
  eof := by rw [h.eof]; exact hs.eof
  code t ht := hs.code t (by rw [h.ahead]; exact List.mem_append_right _ ht)
  tokens t ht := hs.tokens t (by rw [h.ahead]; exact List.mem_append_right _ ht)

theorem ahead_eq (hk : s.peek.kind ≠ .eof) : s.ahead = s.peek :: s.advance.ahead := by
  rw [ahead_advance]
  rw [peek_eq] at hk ⊢
  cases hahead : s.ahead with
  | nil => exact absurd hs.eof (by simpa [hahead] using hk)
  | cons t rest => rfl

/-- Taking a token takes the one that was seen. -/
theorem consumed_advance (hk : s.peek.kind ≠ .eof) : Consumed s s.advance [s.peek] where
  ahead := hs.ahead_eq hk
  eof := eof_advance s
  comments := (collected_advance fun t ht => (hs.code t ht).1).1
  tokens := (collected_advance fun t ht => (hs.code t ht).1).2

theorem peek_lawful (hk : s.peek.kind ≠ .eof) : s.peek.Lawful lawful :=
  hs.tokens s.peek (by rw [hs.ahead_eq hk]; exact List.mem_cons_self ..)

end Lawful

end Stream

namespace Parser

variable {α β : Type} {s : Stream}

/-! ## Sequences of parsers -/

theorem run_bind (p : Parser α) (f : α → Parser β) :
    (p >>= f) s = p s >>= fun x => f x.1 x.2 := rfl

@[simp] theorem bind_peekKind (f : TokenKind → Parser β) :
    (peekKind >>= f) s = f s.peek.kind s.look := rfl

@[simp] theorem bind_peekPos (f : Nat → Parser β) : (peekPos >>= f) s = f s.peek.pos s.look := rfl

@[simp] theorem bind_take (f : Token → Parser β) : (take >>= f) s = f s.peek s.advance := rfl

end Parser

end LuaLint
