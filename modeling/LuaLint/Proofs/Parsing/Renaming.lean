import LuaLint.Proofs.Lexing.Respelling
import LuaLint.Proofs.Parsing.Chunk

/-!
# Parsing with other names

A source in which some names are replaced by another name is parsed to the same tree with those
names replaced. The tokens of the new source are those of the old one, moved and respelled, and the
parser does the same with them.

Main statements: `Parser.follows_splice`, `Parser.parse_splice`.
-/

namespace LuaLint.Parser

open List Lexer Token

variable {t : Token} {offset : Nat → Nat} {source word : Bytes} {chunk : Chunk} {spans : List Span}

/-- The names at the beginnings of some ranges become a word. -/
def respelt (spans : List Span) (word : Bytes) (pos : Nat) (name : Bytes) : Bytes :=
  if pos ∈ spans.map Span.start then word else name

section

variable (hspans : spans.Sublist (nameExtents (tokens source)))
include hspans

theorem name_of_mem_starts (ht : t ∈ tokens source) (hpos : t.pos ∈ spans.map Span.start) :
    t.kind = .name ∧ t.extent ∈ spans := by
  obtain ⟨span, hspan, hstart⟩ := mem_map.mp hpos
  obtain ⟨u, hu, rfl⟩ := mem_map.mp (hspans.subset hspan)
  obtain ⟨hmem, hkind⟩ := mem_filter.mp hu
  obtain rfl : u = t := pos_inj hmem ht hstart
  exact ⟨of_decide_eq_true hkind, hspan⟩

theorem follows_of_respelled {t' : Token} (ht : t ∈ tokens source)
    (herror : ∀ cause, t.kind ≠ .error cause) (h : t.Respelled spans word offset t') :
    t.Follows ⟨offset, respelt spans word⟩ t' := by
  have htext : t.text = t.lexeme := text_of_not_error herror
  have htext' : t'.text = t'.lexeme := text_of_not_error (h.kind ▸ herror)
  have hmem : t.extent ∈ spans ↔ t.pos ∈ spans.map Span.start :=
    ⟨fun hmem => mem_map.mpr ⟨_, hmem, rfl⟩, fun hpos => (name_of_mem_starts hspans ht hpos).2⟩
  refine ⟨h.kind, h.start, fun _ => ?_, fun hname => ?_, fun _ => ?_⟩
  · rw [htext', h.lexeme, htext]
    exact if_congr hmem rfl rfl
  · rw [htext', h.lexeme, htext, if_neg]
    exact fun hspan => hname (name_of_mem_starts hspans ht (hmem.mp hspan)).1
  · have hstop := h.stop
    rwa [extent, extent, ← htext, ← htext'] at hstop

/-- The tokens after names are replaced are the tokens before, elsewhere and with those names. -/
theorem follows_splice (hword : IsName word) (hmoves : Moves spans word.length offset)
    (herror : ∀ t ∈ tokens source, ∀ cause, t.kind ≠ .error cause) :
    List.Forall₂ (Token.Follows ⟨offset, respelt spans word⟩) (tokens source)
      (tokens (Bytes.splice word spans source)) := by
  have hrespelled := tokens_splice hword hmoves herror hspans
  refine ((forall₂_and_left (p := (· ∈ tokens source)) _ _).mpr
    ⟨fun t ht => ht, hrespelled⟩).imp fun t t' h => ?_
  exact follows_of_respelled hspans h.1 (herror t h.1) h.2

end

theorem follows_last {r : Relocation} {ts : List Token} {d : Token}
    (h : List.Forall₂ (Token.Follows r) (tokens source) ts) :
    Token.Follows r ((tokens source).getLast?.getD d) (ts.getLast?.getD d) := by
  rw [getLast?_eq_head?_reverse, getLast?_eq_head?_reverse]
  rw [← forall₂_reverse_iff] at h
  obtain ⟨init, e, hts, -⟩ := (tiles_tokens source).ends
  rw [hts, reverse_append] at h ⊢
  revert h
  generalize ts.reverse = ts'
  rintro (_ | ⟨ht, -⟩)
  exact ht

/-- A source in which names are replaced by a name is parsed to the tree with those names
replaced. -/
theorem parse_splice (hword : IsName word) (hmoves : Moves spans word.length offset)
    (h : parse source = .ok chunk) (hspans : spans.Sublist (nameExtents (tokens source))) :
    ∃ chunk', parse (Bytes.splice word spans source) = .ok chunk' ∧
      chunk'.block = chunk.block.relocate ⟨offset, respelt spans word⟩ := by
  have htokens := follows_splice hspans hword hmoves (not_error_of_parse h)
  have hcode : List.Forall₂ (Token.Follows ⟨offset, respelt spans word⟩) (codeTokens source)
      (codeTokens (Bytes.splice word spans source)) :=
    rel_filter (fun t t' h => by simp [h.kind]) htokens
  obtain ⟨s, hrun, -⟩ := parse_eq_ok.mp h
  rw [← ahead_ofTokens, ← ahead_ofTokens] at hcode
  -- There are as many tokens as before, so that the fuel is the same.
  have hagree := chunkBlock_runs ⟨⟨offset, respelt spans word⟩, Word.Named⟩
    (fuelFor (tokens source).length) _ _ (stream_lawful source)
      ⟨hcode, follows_last htokens⟩ trivial
  rw [hrun] at hagree
  cases hresult : chunkBlock (fuelFor (tokens source).length)
      (.ofTokens (tokens (Bytes.splice word spans source))) with
  | error e =>
    rw [hresult] at hagree
    cases hagree
  | ok result =>
    rw [hresult] at hagree
    cases hagree with
    | ok _ _ hblock =>
      rw [htokens.length_eq] at hresult
      exact ⟨⟨_, _, _, _⟩, parse_eq_ok.mpr ⟨_, hresult, rfl⟩, hblock.2⟩

end LuaLint.Parser
