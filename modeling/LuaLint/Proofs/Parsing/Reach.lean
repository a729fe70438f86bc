import LuaLint.Proofs.Grammar.Printing
import LuaLint.Proofs.Parsing.Run

/-!
# Runs that succeed

A parser reaches a place in a list of tokens when it succeeds on every stream of those tokens and
leaves the stream at that place, unless it lacks fuel. The rules of this module take such statements
about sequences of parsers apart, one parser after the other; places of tokens do not enter into
them.
-/

namespace LuaLint

variable {l : Lexed} {kind : TokenKind}

/-- The kind of the first of some tokens. After the last one comes the end of the source. -/
def headKind : List Lexed → TokenKind
  | [] => .eof
  | l :: _ => l.kind

namespace Stream

/-- The tokens ahead of a stream, without their places. -/
structure Holds (s : Stream) (ls : List Lexed) : Prop where
  ahead : s.ahead.map Token.lexed = ls
  eof : s.eof.kind = .eof

namespace Holds

variable {s : Stream} {l : Lexed} {ls : List Lexed}

theorem look (h : s.Holds ls) : s.look.Holds ls :=
  ⟨by rw [ahead_look, h.ahead], by rw [eof_look, h.eof]⟩

theorem peek_kind (h : s.Holds ls) : s.peek.kind = headKind ls := by
  rw [peek_eq, ← h.ahead]
  cases s.ahead with
  | nil => exact h.eof
  | cons t rest => rfl

theorem peek_text (h : s.Holds (l :: ls)) : s.peek.text = l.text := by
  obtain ⟨t, rest, hs, ht, -⟩ := List.map_eq_cons_iff.mp h.ahead
  rw [peek_eq, hs, ← ht]
  rfl

theorem advance (h : s.Holds (l :: ls)) : s.advance.Holds ls := by
  obtain ⟨t, rest, hs, -, hrest⟩ := List.map_eq_cons_iff.mp h.ahead
  exact ⟨by rw [ahead_advance, hs]; exact hrest, by rw [eof_advance, h.eof]⟩

end Holds

end Stream

namespace Parser

variable {α β : Type} {p : Parser α} {f : α → Parser β} {ls mid rest : List Lexed} {P : α → Prop}
  {Q : β → Prop}

/-- The parser succeeds on every stream of the tokens `ls`, leaves the tokens `rest`, and its result
satisfies `P`. Lack of fuel is the only way for it to fail. -/
def Reaches (p : Parser α) (ls rest : List Lexed) (P : α → Prop) : Prop :=
  ∀ s : Stream, s.Holds ls → (∃ a s', p s = .ok (a, s') ∧ s'.Holds rest ∧ P a) ∨
    ∃ e, p s = .error e ∧ e.fault = .exhausted

namespace Reaches

/-! ## Sequences -/

theorem pure {a : α} (h : P a) : Reaches (Pure.pure a) ls ls P :=
  fun s hs => .inl ⟨a, s, rfl, hs, h⟩

theorem bind (hp : Reaches p ls mid P) (hf : ∀ a, P a → Reaches (f a) mid rest Q) :
    Reaches (p >>= f) ls rest Q := by
  intro s hs
  rcases hp s hs with ⟨a, s₁, ha, hs₁, hP⟩ | ⟨e, he, hfault⟩
  · rw [run_bind, ha]
    exact hf a hP s₁ hs₁
  · rw [run_bind, he]
    exact .inr ⟨e, rfl, hfault⟩

theorem mono {P' : α → Prop} (h : Reaches p ls rest P) (hP : ∀ a, P a → P' a) :
    Reaches p ls rest P' := by
  intro s hs
  exact (h s hs).imp_left fun ⟨a, s', ha, hs', hPa⟩ => ⟨a, s', ha, hs', hP a hPa⟩

theorem exhausted : Reaches (failAt 0 .exhausted : Parser α) ls rest P :=
  fun _ _ => .inr ⟨_, rfl, rfl⟩

/-- Without fuel a function fails for lack of it, so that only runs with some fuel remain. -/
theorem fueled {f : Nat → Parser α} (hzero : f 0 = failAt 0 .exhausted)
    (h : ∀ fuel, Reaches (f (fuel + 1)) ls rest P) (fuel : Nat) : Reaches (f fuel) ls rest P := by
  cases fuel with
  | zero => exact hzero ▸ exhausted
  | succ fuel => exact h fuel

/-! ## Single tokens -/

theorem peekKind {f : TokenKind → Parser β} (kind : TokenKind) (hk : headKind ls = kind)
    (h : Reaches (f kind) ls rest Q) : Reaches (Parser.peekKind >>= f) ls rest Q := by
  intro s hs
  rw [bind_peekKind, hs.peek_kind, hk]
  exact h s.look hs.look

theorem peekPos {f : Nat → Parser β} (h : ∀ pos, Reaches (f pos) ls rest Q) :
    Reaches (Parser.peekPos >>= f) ls rest Q :=
  fun s hs => h s.peek.pos s.look hs.look

theorem take {f : Token → Parser β}
    (h : ∀ t : Token, t.kind = l.kind → t.text = l.text → Reaches (f t) ls rest Q) :
    Reaches (Parser.take >>= f) (l :: ls) rest Q :=
  fun s hs => h s.peek hs.peek_kind hs.peek_text s.advance hs.advance

theorem require {f : Token → Parser β} {want : Expectation} (hk : l.kind = kind)
    (h : ∀ t : Token, t.text = l.text → Reaches (f t) ls rest Q) :
    Reaches (Parser.require kind want >>= f) (l :: ls) rest Q := by
  intro s hs
  rw [run_bind, Parser.require, if_pos (hs.peek_kind.trans hk)]
  exact h s.peek hs.peek_text s.advance hs.advance

theorem expect {f : Token → Parser β} (hk : l.kind = kind) (h : ∀ t, Reaches (f t) ls rest Q) :
    Reaches (Parser.expect kind >>= f) (l :: ls) rest Q :=
  require hk fun t _ => h t

theorem expectClose {f : Nat → Parser β} {opener : String} {opened : Nat} (hk : l.kind = kind)
    (h : ∀ pos, Reaches (f pos) ls rest Q) :
    Reaches (Parser.expectClose kind opener opened >>= f) (l :: ls) rest Q := by
  simp only [Parser.expectClose, bind_assoc, pure_bind]
  exact require hk fun t _ => h t.pos

theorem ident {f : Ident → Parser β} {i : Ident}
    (h : ∀ i' : Ident, i'.erase = i.erase → Reaches (f i') ls rest Q) :
    Reaches (Parser.ident >>= f) (i.lexed :: ls) rest Q := by
  simp only [Parser.ident, bind_assoc, pure_bind]
  exact require rfl fun t ht => h _ (congrArg (Ident.mk 0) ht)

theorem accept {f : Bool → Parser β} (hk : l.kind = kind) (h : Reaches (f true) ls rest Q) :
    Reaches (Parser.accept kind >>= f) (l :: ls) rest Q := by
  intro s hs
  rw [run_bind, Parser.accept, if_pos (hs.peek_kind.trans hk)]
  exact h s.advance hs.advance

theorem refuse {f : Bool → Parser β} (hk : headKind ls ≠ kind) (h : Reaches (f false) ls rest Q) :
    Reaches (Parser.accept kind >>= f) ls rest Q := by
  intro s hs
  rw [run_bind, Parser.accept, if_neg (hs.peek_kind.symm ▸ hk)]
  exact h s.look hs.look

end Reaches

end Parser

end LuaLint
