import Mathlib.Data.List.Chain
import LuaLint.Proofs.Syntax.Ranges

/-!
# The nodes around an offset

The search for the nodes around an offset leaves out what lies below a node that does not contain
the offset. Nothing is lost by that: a range that contains an offset is not empty, so it lies in the
range of the parent. What is found is one path from the root, since siblings do not overlap.

Main statements: `Outline.Placed.around_eq_filter`, `Outline.Placed.around_eq_path`,
`Parser.around_chunk`.
-/

namespace LuaLint

open List

theorem Span.covers_int_iff {s : Span} {off : Int} :
    s.covers off = true ↔ (s.start : Int) ≤ off ∧ off < s.stop := by
  simp [covers]

namespace Outline

variable {off : Int} {o : Outline}

theorem aroundIn_eq_flatMap (off : Int) (os : List Outline) :
    aroundIn off os = os.flatMap (around off) := by
  induction os with
  | nil => rfl
  | cons o os ih => rw [aroundIn, ih, flatMap_cons]

theorem around_eq_nil (h : ¬ o.span.covers off = true) : o.around off = [] := by
  obtain ⟨node, children⟩ := o
  exact if_neg h

namespace Placed

/-- What contains an offset below a node lies in the range of the node, which contains it too. -/
theorem covers_root (h : o.Placed) {n : Node} (hn : n ∈ o.nodes) (hoff : n.span.covers off = true) :
    o.span.covers off = true := by
  rw [Span.covers_int_iff] at hoff ⊢
  have hbounds := h.bounds n hn (by omega)
  rw [span]
  omega

/-- The search finds all nodes around an offset. -/
theorem around_eq_filter (h : o.Placed) : o.around off = o.nodes.filter (·.span.covers off) := by
  induction h with
  | @mk node os hle hlt hplaced hos hordered ih =>
    have hroot := mk hle hlt hplaced hos hordered
    by_cases hoff : node.span.covers off = true
    · have hnodes : (Outline.mk node os).nodes = node :: os.flatMap nodes := by
        rw [nodes_eq, nodesOf_cons, nodesOf_nil, append_nil, nodesOf_eq_flatMap]
      rw [around, if_pos hoff, hnodes, filter_cons, if_pos hoff, aroundIn_eq_flatMap,
        filter_flatMap]
      exact congrArg (cons node) (flatMap_congr ih)
    · rw [around, if_neg hoff, eq_comm, filter_eq_nil_iff]
      exact fun n hn hcovers => hoff (hroot.covers_root hn hcovers)

/-- Of some siblings at most one contains an offset. -/
theorem aroundIn_eq {os : List Outline} (off : Int)
    (h : os.Pairwise fun o o' => o.node.span.stop ≤ o'.node.span.start) :
    aroundIn off os = [] ∨ ∃ o ∈ os, aroundIn off os = o.around off := by
  induction h with
  | nil => exact .inl rfl
  | @cons o os hlater _ ih =>
    rw [aroundIn]
    by_cases hoff : o.span.covers off = true
    · refine .inr ⟨o, mem_cons_self, ?_⟩
      rw [aroundIn_eq_flatMap, append_right_eq_self, flatMap_eq_nil_iff]
      intro o' ho'
      refine around_eq_nil ?_
      have hbehind := hlater o' ho'
      rw [Span.covers_int_iff, span] at hoff ⊢
      omega
    · rw [around_eq_nil hoff, nil_append]
      exact ih.imp_right fun ⟨o', ho', heq⟩ => ⟨o', mem_cons_of_mem _ ho', heq⟩

/-- What it finds is one path from the root. -/
theorem around_eq_path (h : o.Placed) (off : Int) : ∃ path : List Outline,
    path.map node = o.around off ∧ (∀ first ∈ path.head?, first = o) ∧
      path.IsChain fun parent child => child ∈ parent.children := by
  induction h with
  | @mk n os _ _ _ _ hordered ih =>
    rw [around]
    split
    · rcases aroundIn_eq off hordered with hnone | ⟨c, hc, hone⟩
      · exact ⟨[.mk n os], by rw [hnone]; rfl, by simp, .singleton _⟩
      · obtain ⟨path, hpath, hfirst, hchain⟩ := ih c hc
        refine ⟨.mk n os :: path, by rw [hone, map_cons, hpath]; rfl, by simp, ?_⟩
        exact isChain_cons.mpr ⟨fun first hmem => hfirst first hmem ▸ hc, hchain⟩
    · exact ⟨[], rfl, by simp, .nil⟩

end Placed

end Outline

namespace Parser

/-- The nodes around an offset of a parsed chunk are the nodes of its tree whose ranges contain the
offset, in the order of a walk. They form a path that begins at the root, where every node is a
child of the one before it. -/
theorem around_chunk {source : Bytes} {chunk : Chunk} (h : parse source = .ok chunk) (off : Int) :
    chunk.outline.around off = chunk.nodes.filter (·.span.covers off) ∧
    ∃ path : List Outline, path.map Outline.node = chunk.outline.around off ∧
      (∀ first ∈ path.head?, first = chunk.outline) ∧
      path.IsChain fun parent child => child ∈ parent.children := by
  have hplaced := (nested_of_parse h).placed
  exact ⟨hplaced.around_eq_filter, hplaced.around_eq_path off⟩

/-- The empty block of the `elseif` arm stands at the `else` and is not found there. -/
theorem around_chunk_elseif :
    ∃ chunk, parse "if a then elseif b then else f(x) end" = .ok chunk ∧
      (chunk.outline.around 31).map Node.span =
        [⟨0, 37⟩, ⟨0, 37⟩, ⟨29, 33⟩, ⟨29, 33⟩, ⟨29, 33⟩, ⟨31, 32⟩] ∧
      chunk.outline.around 24 = chunk.nodes.filter (·.span.covers 24) := by
  exact exists_ok_and ⟨_, rfl, rfl⟩ fun _ hparse _ => (around_chunk hparse 24).1

end Parser

end LuaLint
