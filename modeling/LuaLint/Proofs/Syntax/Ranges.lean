import LuaLint.Syntax.Chain
import LuaLint.Proofs.Syntax.Nesting

/-!
# The ranges of a tree

The range of a node lies in that of its parent, and the ranges of its children follow each other in
the order of a walk. Every range begins where some code token begins and ends where one ends, except
for a block without statements, which is empty and still stands between its siblings.

Main statements: `Parser.ranged_of_parse`, `Parser.ranges_nested`.
-/

namespace LuaLint

open List

/-! ## Outlines in outlines -/

namespace Outline

def children : Outline → List Outline
  | .mk _ children => children

/-- An outline is another one or occurs below it. -/
inductive Holds : Outline → Outline → Prop where
  | self {o : Outline} : Holds o o
  | child {node : Node} {children : List Outline} {c o : Outline} :
      c ∈ children → Holds c o → Holds (.mk node children) o

mutual

theorem holds_of_mem_nodes : ∀ (o : Outline) (n : Node), n ∈ o.nodes → ∃ o',
    o.Holds o' ∧ o'.node = n
  | .mk node children, n, hn => by
    rcases mem_nodes_mk.mp hn with rfl | hn
    · exact ⟨_, .self, rfl⟩
    · obtain ⟨c, hc, o', ho', heq⟩ := holds_of_mem_nodesOf children n (mem_nodesOf.mpr hn)
      exact ⟨o', .child hc ho', heq⟩

theorem holds_of_mem_nodesOf : ∀ (os : List Outline) (n : Node), n ∈ nodesOf os →
    ∃ o ∈ os, ∃ o', o.Holds o' ∧ o'.node = n
  | [], n, hn => by
    rw [nodesOf_nil] at hn
    cases hn
  | o :: os, n, hn => by
    rw [nodesOf, levelsOf, map_append, mem_append] at hn
    rcases hn with hn | hn
    · exact ⟨o, mem_cons_self .., holds_of_mem_nodes o n hn⟩
    · obtain ⟨o', ho', hheld⟩ := holds_of_mem_nodesOf os n hn
      exact ⟨o', mem_cons_of_mem _ ho', hheld⟩

end

theorem mem_nodes_iff {o : Outline} {n : Node} : n ∈ o.nodes ↔ ∃ o', o.Holds o' ∧ o'.node = n := by
  refine ⟨holds_of_mem_nodes o n, ?_⟩
  rintro ⟨o', ho', rfl⟩
  induction ho' with
  | self => exact node_mem_nodes _
  | child hc _ ih => exact mem_nodes_mk.mpr (.inr ⟨_, hc, ih⟩)

theorem Placed.held {o o' : Outline} (h : o.Placed) (ho : o.Holds o') : o'.Placed := by
  induction ho with
  | self => exact h
  | child hc _ ih =>
    cases h with
    | mk _ _ hplaced _ _ => exact ih (hplaced _ hc)

end Outline

theorem Expr.holds_strip : ∀ e : Expr, e.outline.Holds e.strip.outline
  | .paren _ inner _ => .child (mem_singleton_self _) inner.holds_strip
  | .nil _ | .bool _ _ | .number _ _ | .string _ _ _ | .vararg _ | .name _ | .function _ _
  | .table _ _ _ | .binary _ _ _ _ | .unary _ _ _ | .field _ _ | .element _ _ _ _ | .call _ _ _ _ =>
    .self

theorem Expr.holds_link {l : Expr} : ∀ {e : Expr}, l ∈ e.links → e.outline.Holds l.outline
  | .field _ _, hl | .element _ _ _ _, hl | .call _ _ _ _, hl => by
    rcases mem_append.mp hl with hl | hl
    · exact .child mem_cons_self (holds_link hl)
    · rw [mem_singleton.mp hl]
      exact .self

/-! ## Parsed chunks -/

/-- The range of an outline over some tokens: it begins and ends with tokens, is not empty, encloses
the ranges of the children, and these follow each other. -/
structure Outline.Ranged (ts : List Token) (o : Outline) : Prop where
  starts : ∃ t ∈ ts, t.pos = o.span.start
  stops : ∃ t ∈ ts, t.stop = o.span.stop
  nonempty : o.span.start < o.span.stop
  encloses : ∀ c ∈ o.children, ¬ c.node.IsEmptyBlock → o.span.encloses c.span = true
  inOrder : o.children.Pairwise fun c c' => c.span.stop ≤ c'.span.start

def Chunk.span (c : Chunk) : Span := ⟨0, c.size⟩

namespace Parser

variable {source : Bytes} {chunk : Chunk}

theorem stop_le_length (h : parse source = .ok chunk) {t : Token}
    (ht : t ∈ Lexer.codeTokens source) : t.stop ≤ source.length := by
  have hbound := ((Lexer.tiles_tokens source).bounds t (mem_filter.mp ht).1).2
  rw [Glyph.flatMap_bytes_decode] at hbound
  rw [Token.stop, Token.text_eq_lexeme ((chunk_of_parse h).1.reads.isProper t ht)]
  simpa [Mark.first] using hbound

/-- The range of a node goes from the first of its tokens to the last. -/
theorem ranged_of_parse (h : parse source = .ok chunk) {o : Outline} (ho : chunk.outline.Holds o)
    (hne : ¬ o.node.IsEmptyBlock) : o.Ranged (Lexer.codeTokens source) := by
  have hnested := nested_of_parse h
  have hruns := (hnested.runs _ (Outline.mem_nodes_iff.mpr ⟨o, ho, rfl⟩)).resolve_left hne
  have hplaced := hnested.placed.held ho
  refine ⟨hruns.ends.1, hruns.ends.2, hplaced.lt hne, fun c hc hc' => ?_, ?_⟩ <;> cases hplaced with
  | mk _ _ hbelow hos hordered => ?_
  · exact Span.encloses_iff.mpr ((hos c hc).imp_right fun hstop => hstop ((hbelow c hc).lt hc'))
  · exact hordered

/-- The ranges of a parsed chunk form a tree. The range of the chunk is the whole source. The range
of every node that a walk visits, other than a block without statements, begins with a code token
and ends with one, is not empty, lies within that of the chunk and encloses those of the children
of the node; the ranges of the children follow each other in the order of the walk. -/
theorem ranges_nested (h : parse source = .ok chunk) :
    chunk.span = ⟨0, source.length⟩ ∧
    (source ≠ [] → chunk.span.start < chunk.span.stop) ∧
    (∀ n, n ∈ chunk.nodes ↔ ∃ o, chunk.outline.Holds o ∧ o.node = n) ∧
    ∀ o, chunk.outline.Holds o → ¬ o.node.IsEmptyBlock →
      (∃ t ∈ Lexer.codeTokens source, t.pos = o.span.start) ∧
      (∃ t ∈ Lexer.codeTokens source, t.stop = o.span.stop) ∧
      o.span.start < o.span.stop ∧
      chunk.span.encloses o.span = true ∧
      (∀ c ∈ o.children, ¬ c.node.IsEmptyBlock → o.span.encloses c.span = true) ∧
      o.children.Pairwise fun c c' => c.span.stop ≤ c'.span.start := by
  have hspan : chunk.span = ⟨0, source.length⟩ := by rw [Chunk.span, (chunk_of_parse h).2.2.2]
  refine ⟨hspan, ?_, fun n => Outline.mem_nodes_iff, fun o ho hne => ?_⟩
  · rw [hspan]
    exact List.length_pos_iff.mpr
  · have hranged := ranged_of_parse h ho hne
    refine ⟨hranged.starts, hranged.stops, hranged.nonempty, ?_, hranged.encloses, hranged.inOrder⟩
    obtain ⟨t, ht, hstop⟩ := hranged.stops
    rw [hspan, Span.encloses_iff, ← hstop]
    exact ⟨Nat.zero_le _, stop_le_length h ht⟩

/-- The block of the `elseif` arm stands past the end of the arm. -/
theorem ranges_nested_elseif :
    ∃ chunk, parse "if a then elseif b then else ; end function t:m(x) return end" = .ok chunk ∧
      chunk.nodes.map Node.span =
        [⟨0, 61⟩, ⟨0, 34⟩, ⟨3, 4⟩, ⟨10, 10⟩, ⟨10, 23⟩, ⟨17, 18⟩, ⟨24, 24⟩, ⟨29, 29⟩, ⟨35, 61⟩,
          ⟨44, 47⟩, ⟨44, 45⟩, ⟨46, 47⟩, ⟨47, 61⟩, ⟨48, 49⟩, ⟨51, 57⟩, ⟨51, 57⟩] ∧
      ∀ o, chunk.outline.Holds o → ¬ o.node.IsEmptyBlock →
        o.span.start < o.span.stop ∧
        (∀ c ∈ o.children, ¬ c.node.IsEmptyBlock → o.span.encloses c.span = true) ∧
        o.children.Pairwise fun c c' => c.span.stop ≤ c'.span.start := by
  refine exists_ok_and ⟨_, rfl, rfl⟩ fun _ hparse _ o ho hne => ?_
  obtain ⟨-, -, hlt, -, hchildren⟩ := (ranges_nested hparse).2.2.2 o ho hne
  exact ⟨hlt, hchildren⟩

end Parser

end LuaLint
