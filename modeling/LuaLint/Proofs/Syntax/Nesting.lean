import LuaLint.Proofs.Syntax.Spans
import LuaLint.Proofs.Parsing.Chunk

/-!
# Nested ranges

The tokens of a source come one after the other, and the nodes of a tree cover runs of them. Two
nodes are therefore apart, or one lies within the other. The same holds of a node and a token.

Main statements: `Covers.placed`, `Outline.Placed.laminar`, `Parser.nested_of_parse`.
-/

namespace LuaLint

open List Outline

variable {s s' : Span} {a b : Nat} {n : Node} {source : Bytes} {chunk : Chunk}

/-! ## Ordered tokens -/

/-- Tokens that are not empty and come one after the other. -/
structure Ordered (ts : List Token) : Prop where
  nonempty : ∀ t ∈ ts, t.pos < t.stop
  pairwise : ts.Pairwise fun t u => t.stop ≤ u.pos

/-- A range covers a run of some tokens. -/
def Runs (ts : List Token) (s : Span) : Prop :=
  ∃ before run after, ts = before ++ run ++ after ∧ Starts s.start run ∧ Stops s.stop run

/-- Two ranges that are apart, or of which one lies within the other. -/
def Span.Laminar (s s' : Span) : Prop :=
  s.stop ≤ s'.start ∨ s'.stop ≤ s.start ∨ s.encloses s' = true ∨ s'.encloses s = true

theorem Span.Laminar.symm (h : s.Laminar s') : s'.Laminar s := by
  rcases h with h | h | h | h
  · exact .inr (.inl h)
  · exact .inl h
  · exact .inr (.inr (.inr h))
  · exact .inr (.inr (.inl h))

theorem eq_or_of_pairwise {α : Type} {related : α → α → Prop} {xs : List α}
    (h : xs.Pairwise related)
    {x y : α} (hx : x ∈ xs) (hy : y ∈ xs) : x = y ∨ related x y ∨ related y x := by
  obtain ⟨before, after, rfl⟩ := append_of_mem hx
  obtain ⟨-, hafter, hbefore⟩ := pairwise_append.mp h
  rcases mem_append.mp hy with hy | hy
  · exact .inr (.inr (hbefore y hy x mem_cons_self))
  · exact (mem_cons.mp hy).imp Eq.symm fun hy => .inl ((pairwise_cons.mp hafter).1 y hy)

theorem Span.encloses_iff : s.encloses s' = true ↔ s.start ≤ s'.start ∧ s'.stop ≤ s.stop := by
  simp [encloses]

variable {ts us before run after rest : List Token} {t : Token} {s s' : Span} {os : List Outline}

namespace Ordered

theorem append_iff : Ordered (ts ++ us) ↔
    Ordered ts ∧ Ordered us ∧ ∀ t ∈ ts, ∀ u ∈ us, t.stop ≤ u.pos := by
  constructor
  · rintro ⟨hne, hpair⟩
    rw [forall_mem_append] at hne
    rw [pairwise_append] at hpair
    exact ⟨⟨hne.1, hpair.1⟩, ⟨hne.2, hpair.2.1⟩, hpair.2.2⟩
  · rintro ⟨hts, hus, h⟩
    exact ⟨forall_mem_append.mpr ⟨hts.nonempty, hus.nonempty⟩,
      pairwise_append.mpr ⟨hts.pairwise, hus.pairwise, h⟩⟩

theorem le_pos (h : Ordered run) (hstart : Starts a run) : ∀ t ∈ run, a ≤ t.pos := by
  obtain ⟨first, rest, rfl, rfl⟩ := hstart
  intro t ht
  rcases mem_cons.mp ht with rfl | ht
  · exact Nat.le_refl _
  · have hfirst := h.nonempty first (mem_cons_self ..)
    have hle := (pairwise_cons.mp h.pairwise).1 t ht
    omega

theorem bounds (h : Ordered run) (hstart : Starts a run) (hstop : Stops b run) :
    ∀ t ∈ run, a ≤ t.pos ∧ t.stop ≤ b := by
  intro t ht
  refine ⟨h.le_pos hstart t ht, ?_⟩
  obtain ⟨init, last, rfl, rfl⟩ := hstop
  obtain ⟨-, hlast, hle⟩ := append_iff.mp h
  rcases mem_append.mp ht with ht | ht
  · have hlast := hlast.nonempty last (mem_singleton_self _)
    have hle := hle t ht last (mem_singleton_self _)
    omega
  · exact Nat.le_of_eq (congrArg Token.stop (mem_singleton.mp ht))

theorem lt (h : Ordered run) (hstart : Starts a run) (hstop : Stops b run) : a < b := by
  obtain ⟨first, rest, rfl, rfl⟩ := hstart
  have hfirst := h.nonempty first (mem_cons_self ..)
  have hbound := (h.bounds (.append (.single first) rest) hstop first (mem_cons_self ..)).2
  omega

end Ordered

namespace Runs

theorem within (h : Runs run s) (before after : List Token) : Runs (before ++ run ++ after) s := by
  obtain ⟨before', run', after', rfl, hrun⟩ := h
  exact ⟨before ++ before', run', after' ++ after, by simp, hrun⟩

theorem of_mem (h : t ∈ ts) : Runs ts ⟨t.pos, t.stop⟩ := by
  obtain ⟨before, after, rfl⟩ := append_of_mem h
  exact ⟨before, [t], after, by simp, .single t, .single t⟩

theorem ends (h : Runs ts s) : (∃ t ∈ ts, t.pos = s.start) ∧ ∃ t ∈ ts, t.stop = s.stop := by
  obtain ⟨before, run, after, rfl, ⟨first, rest, rfl, hfirst⟩, init, last, hrun, hlast⟩ := h
  refine ⟨⟨first, by simp, hfirst⟩, last, ?_, hlast⟩
  rw [hrun]
  simp

theorem lt (h : Runs ts s) (hts : Ordered ts) : s.start < s.stop := by
  obtain ⟨before, run, after, rfl, hstart, hstop⟩ := h
  exact (Ordered.append_iff.mp (Ordered.append_iff.mp hts).1).2.1.lt hstart hstop

theorem bounds (h : Runs run s) (hrun : Ordered run) (hstart : Starts a run) (hstop : Stops b run) :
    a ≤ s.start ∧ s.stop ≤ b := by
  obtain ⟨⟨t, ht, hpos⟩, u, hu, hpast⟩ := h.ends
  exact ⟨hpos ▸ (hrun.bounds hstart hstop t ht).1, hpast ▸ (hrun.bounds hstart hstop u hu).2⟩

theorem laminar_token (h : Runs ts s) (hts : Ordered ts) (ht : t ∈ ts) :
    s.Laminar ⟨t.pos, t.stop⟩ := by
  obtain ⟨before, run, after, rfl, hstart, hstop⟩ := h
  obtain ⟨hinit, -, hafter⟩ := Ordered.append_iff.mp hts
  obtain ⟨-, hrun, hbefore⟩ := Ordered.append_iff.mp hinit
  rw [mem_append, mem_append] at ht
  rcases ht with (ht | ht) | ht
  · obtain ⟨first, rest, rfl, hfirst⟩ := hstart
    exact .inr (.inl (hfirst ▸ hbefore t ht first (mem_cons_self ..)))
  · exact .inr (.inr (.inl (Span.encloses_iff.mpr (hrun.bounds hstart hstop t ht))))
  · obtain ⟨init, last, rfl, hlast⟩ := hstop
    exact .inl (hlast ▸ hafter last (by simp) t ht)

end Runs

/-! ## Nodes of outlines -/

namespace Outline

def nodesOf (os : List Outline) : List Node := (levelsOf 0 os).map Prod.snd

mutual

theorem levels_map_snd (o : Outline) (depth depth' : Nat) :
    (levels depth o).map Prod.snd = (levels depth' o).map Prod.snd := by
  cases o with
  | mk node children =>
    rw [levels, levels, map_cons, map_cons, levelsOf_map_snd children (depth + 1) (depth' + 1)]

theorem levelsOf_map_snd (os : List Outline) (depth depth' : Nat) :
    (levelsOf depth os).map Prod.snd = (levelsOf depth' os).map Prod.snd := by
  cases os with
  | nil => rfl
  | cons o os =>
    rw [levelsOf, levelsOf, map_append, map_append, levels_map_snd o depth depth',
      levelsOf_map_snd os depth depth']

end

theorem nodesOf_nil : nodesOf [] = [] := rfl

theorem nodesOf_cons (node : Node) (children os : List Outline) :
    nodesOf (.mk node children :: os) = node :: (nodesOf children ++ nodesOf os) := by
  rw [nodesOf, levelsOf, levels, map_append, map_cons, levelsOf_map_snd children (0 + 1) 0]
  rfl

theorem nodes_eq (o : Outline) : o.nodes = nodesOf [o] := by
  rw [nodes, nodesOf, levelsOf, levelsOf, append_nil]

theorem nodesOf_eq_flatMap (os : List Outline) : nodesOf os = os.flatMap nodes := by
  induction os with
  | nil => rfl
  | cons o os ih => rw [nodesOf, levelsOf, map_append, flatMap_cons, ← ih]; rfl

theorem mem_nodesOf {os : List Outline} : n ∈ nodesOf os ↔ ∃ o ∈ os, n ∈ o.nodes := by
  rw [nodesOf_eq_flatMap, mem_flatMap]

theorem mem_nodes_mk {node : Node} {children : List Outline} :
    n ∈ (Outline.mk node children).nodes ↔ n = node ∨ ∃ o ∈ children, n ∈ o.nodes := by
  rw [nodes_eq, nodesOf_cons, nodesOf_nil, append_nil, mem_cons, mem_nodesOf]

theorem node_mem_nodes (o : Outline) : o.node ∈ o.nodes := by
  obtain ⟨node, children⟩ := o
  exact mem_nodes_mk.mpr (.inl rfl)

def span (o : Outline) : Span := o.node.span

end Outline

def Node.IsEmptyBlock (n : Node) : Prop := ∃ pos, n = .block (.mk pos [])

theorem Node.not_isEmptyBlock (h : n.isBlock = false) : ¬ n.IsEmptyBlock := by
  rintro ⟨pos, rfl⟩
  cases h

namespace Covers

theorem runs (h : Covers os ts rest) :
    ∀ n ∈ nodesOf os, n.IsEmptyBlock ∨ Runs ts n.span := by
  induction h with
  | nil => simp [nodesOf_nil]
  | @empty pos os before after rest _ _ ih =>
    rw [nodesOf_cons, nodesOf_nil, nil_append, forall_mem_cons]
    refine ⟨.inl ⟨pos, rfl⟩, fun n hn => (ih n hn).imp_right fun h => ?_⟩
    simpa using h.within before []
  | @cons node children os before run after rest _ hstart hstop _ _ ihc ih =>
    rw [nodesOf_cons, forall_mem_cons, forall_mem_append]
    refine ⟨.inr ⟨before, run, after, rfl, hstart, hstop⟩, ?_, ?_⟩
    · exact fun n hn => (ihc n hn).imp_right fun h => h.within before after
    · intro n hn
      have hafter : before ++ run ++ after = (before ++ run) ++ after ++ [] := by simp
      exact (ih n hn).imp_right fun h => hafter ▸ h.within (before ++ run) []

/-- Every outline begins at a token, a block without statements included. -/
theorem exists_pos (h : Covers os ts rest) : ∀ o ∈ os, ∃ t ∈ ts ++ rest, t.pos = o.span.start := by
  induction h with
  | nil => simp
  | @empty pos os before after rest hpos _ ih =>
    obtain ⟨first, us, hfirst, rfl⟩ := hpos
    rw [forall_mem_cons, append_assoc]
    refine ⟨⟨first, ?_, rfl⟩, fun o ho => ?_⟩
    · rw [hfirst]
      simp
    · obtain ⟨t, ht, hpos⟩ := ih o ho
      exact ⟨t, mem_append_right _ ht, hpos⟩
  | @cons node children os before run after rest _ hstart _ _ _ _ ih =>
    obtain ⟨first, us, rfl, hfirst⟩ := hstart
    rw [forall_mem_cons]
    refine ⟨⟨first, by simp, hfirst⟩, fun o ho => ?_⟩
    obtain ⟨t, ht, hpos⟩ := ih o ho
    rw [append_assoc]
    exact ⟨t, mem_append_right _ ht, hpos⟩

/-- Siblings follow each other. -/
theorem inOrder (h : Covers os ts rest) (hts : Ordered (ts ++ rest)) :
    os.Pairwise fun o o' => o.span.stop ≤ o'.span.start := by
  induction h with
  | nil => exact .nil
  | @empty pos os before after rest hpos hos ih =>
    rw [append_assoc, Ordered.append_iff] at hts
    refine .cons (fun o ho => ?_) (ih hts.2.1)
    -- A block without statements stands at the next token, where nothing else has begun.
    obtain ⟨t, ht, hstart⟩ := hos.exists_pos o ho
    exact hstart ▸ hts.2.1.le_pos hpos t ht
  | @cons node children os before run after rest _ _ hstop _ hos _ ih =>
    rw [append_assoc, Ordered.append_iff] at hts
    refine .cons (fun o ho => ?_) (ih hts.2.1)
    obtain ⟨t, ht, hstart⟩ := hos.exists_pos o ho
    obtain ⟨init, last, rfl, hlast⟩ := hstop
    exact hlast ▸ hstart ▸ hts.2.2 last (by simp) t ht

end Covers

/-! ## Ranges in place -/

/-- The ranges of the children of each node lie in its own range, one after the other. Only a block
without statements is empty, and may stand anywhere behind the beginning of its parent. -/
inductive Outline.Placed : Outline → Prop where
  | mk {n : Node} {os : List Outline} :
      n.span.start ≤ n.span.stop → (¬ n.IsEmptyBlock → n.span.start < n.span.stop) →
      (∀ o ∈ os, o.Placed) → (∀ o ∈ os, n.span.start ≤ o.node.span.start ∧
        (o.node.span.start < o.node.span.stop → o.node.span.stop ≤ n.span.stop)) →
      (os.Pairwise fun o o' => o.node.span.stop ≤ o'.node.span.start) → Placed (.mk n os)

namespace Outline.Placed

variable {o : Outline}

theorem empty (pos : Nat) : (Outline.mk (.block (.mk pos [])) []).Placed :=
  .mk (Nat.le_refl pos) (fun h => absurd ⟨pos, rfl⟩ h) (by simp) (by simp) .nil

theorem le (h : o.Placed) : o.node.span.start ≤ o.node.span.stop := by
  cases h
  assumption

theorem lt (h : o.Placed) (hne : ¬ o.node.IsEmptyBlock) : o.node.span.start < o.node.span.stop := by
  cases h with
  | mk _ hlt _ _ _ => exact hlt hne

theorem bounds (h : o.Placed) : ∀ n ∈ o.nodes, n.span.start < n.span.stop →
    o.node.span.start ≤ n.span.start ∧ n.span.stop ≤ o.node.span.stop := by
  induction h with
  | @mk node os _ _ _ hos _ ih =>
    intro n hn hlt
    rcases mem_nodes_mk.mp hn with rfl | ⟨c, hc, hn⟩
    · exact ⟨Nat.le_refl _, Nat.le_refl _⟩
    · obtain ⟨hstart, hstop⟩ := ih c hc n hn hlt
      obtain ⟨hle, hbelow⟩ := hos c hc
      exact ⟨Nat.le_trans hle hstart, Nat.le_trans hstop (hbelow (by omega))⟩

/-- Two nodes are apart or nested. -/
theorem laminar (h : o.Placed) : ∀ n ∈ o.nodes, ∀ m ∈ o.nodes, n.span.start < n.span.stop →
    m.span.start < m.span.stop → n.span.Laminar m.span := by
  induction h with
  | @mk node os hle hlt hplaced hos hordered ih =>
    have hroot : ∀ m ∈ (Outline.mk node os).nodes, m.span.start < m.span.stop →
        node.span.Laminar m.span := fun m hm hm' =>
      .inr (.inr (.inl (Span.encloses_iff.mpr ((mk hle hlt hplaced hos hordered).bounds m hm hm'))))
    intro n hn m hm hn' hm'
    rcases mem_nodes_mk.mp hn with rfl | ⟨c, hc, hnc⟩
    · exact hroot m hm hm'
    rcases mem_nodes_mk.mp hm with rfl | ⟨c', hc', hmc⟩
    · exact (hroot n hn hn').symm
    -- What lies below two children is apart, as the children are.
    rcases eq_or_of_pairwise hordered hc hc' with rfl | hapart
    · exact ih c hc n hnc m hmc hn' hm'
    · have hbounds := (hplaced c hc).bounds n hnc hn'
      have hbounds' := (hplaced c' hc').bounds m hmc hm'
      unfold Span.Laminar
      omega

end Outline.Placed

/-- Outlines that cover tokens in order are in their places. -/
theorem Covers.placed (h : Covers os ts rest) (hts : Ordered (ts ++ rest)) :
    ∀ o ∈ os, o.Placed := by
  induction h with
  | nil => simp
  | @empty pos os before after rest _ _ ih =>
    rw [append_assoc] at hts
    exact forall_mem_cons.mpr ⟨.empty pos, ih (Ordered.append_iff.mp hts).2.1⟩
  | @cons node children os before run after rest _ hstart hstop hc _ ihc ih =>
    rw [append_assoc, append_assoc] at hts
    have hrun := (Ordered.append_iff.mp hts).2.1
    obtain ⟨hthis, hlater, -⟩ := Ordered.append_iff.mp hrun
    have hlt := hthis.lt hstart hstop
    refine forall_mem_cons.mpr ⟨.mk (Nat.le_of_lt hlt) (fun _ => hlt) (ihc hrun)
      (fun o ho => ⟨?_, fun hne => ?_⟩) (hc.inOrder hrun), ih hlater⟩
    · obtain ⟨t, ht, hpos⟩ := hc.exists_pos o ho
      exact Nat.le_trans (hrun.le_pos (hstart.append _) t ht) (Nat.le_of_eq hpos)
    · rcases hc.runs _ (mem_nodesOf.mpr ⟨o, ho, o.node_mem_nodes⟩) with ⟨pos, hempty⟩ | hruns
      · rw [hempty] at hne
        exact absurd hne (Nat.lt_irrefl _)
      · exact (hruns.bounds hthis hstart hstop).2

/-! ## Parsed chunks -/

theorem Lexer.ordered_codeTokens (h : ∀ t ∈ codeTokens source, t.kind.IsProper) :
    Ordered (codeTokens source) := by
  obtain ⟨init, e, hts, he, hinit⟩ := (tiles_tokens source).ends
  have hlexeme : ∀ t ∈ codeTokens source, t.text = t.lexeme := fun t ht =>
    Token.text_eq_lexeme (h t ht)
  refine ⟨?_, ?_⟩
  · intro t ht
    obtain ⟨hmem, hcode⟩ := mem_filter.mp ht
    rw [hts, mem_append, mem_singleton] at hmem
    rcases hmem with hmem | rfl
    · have hne := length_pos_iff.mpr (hinit t hmem).2
      rw [Token.stop, hlexeme t ht]
      omega
    · simp [he] at hcode
  · have hpair := (tiles_tokens source).ordered.filter fun t => t.kind.isCode && t.kind != .eof
    refine List.Pairwise.imp_of_mem ?_ hpair
    intro t u ht _ htu
    rw [Token.stop, hlexeme t ht]
    exact htu

namespace Parser

/-- The nodes and tokens of a parsed chunk: every node other than a block without statements covers
a run of the code tokens, any two of them are apart or nested, and so are a node and a token. -/
structure Nested (chunk : Chunk) (ts : List Token) : Prop where
  ordered : Ordered ts
  tokens : chunk.tokens = ts.map fun t => ⟨t.pos, t.stop⟩
  runs : ∀ n ∈ chunk.nodes, n.IsEmptyBlock ∨ Runs ts n.span
  placed : chunk.outline.Placed
  laminar : ∀ n ∈ chunk.nodes, ∀ m ∈ chunk.nodes, ¬ n.IsEmptyBlock → ¬ m.IsEmptyBlock →
    n.span.Laminar m.span

theorem outline_of_parse (h : parse source = .ok chunk) :
    (∃ pos, chunk.outline = .mk (.block (.mk pos [])) []) ∨
      Fits [chunk.outline] (Lexer.codeTokens source) := by
  have hread := (chunk_of_parse h).1.reads
  rw [Chunk.outline]
  cases hblock : chunk.block with
  | mk pos ss =>
    rw [hblock] at hread
    cases ss with
    | nil => exact .inl ⟨pos, rfl⟩
    | cons s ss => exact .inr (StmtsFit.block hread.fits (cons_ne_nil s ss) pos)

/-- So are the nodes of a parsed chunk and its tokens. -/
theorem nested_of_parse (h : parse source = .ok chunk) :
    Nested chunk (Lexer.codeTokens source) := by
  obtain ⟨hread, htokens, -⟩ := chunk_of_parse h
  have hordered := Lexer.ordered_codeTokens hread.reads.isProper
  have hnodes : chunk.nodes = nodesOf [chunk.outline] := nodes_eq _
  obtain ⟨hplaced, hruns⟩ : chunk.outline.Placed ∧
      ∀ n ∈ chunk.nodes, n.IsEmptyBlock ∨ Runs (Lexer.codeTokens source) n.span := by
    rw [hnodes]
    rcases outline_of_parse h with ⟨pos, hempty⟩ | hfits
    · rw [hempty, nodesOf_cons]
      exact ⟨.empty pos, by simp [nodesOf_nil, Node.IsEmptyBlock]⟩
    · refine ⟨(hfits []).placed ?_ _ (mem_singleton_self _), (hfits []).runs⟩
      rwa [append_nil]
  exact ⟨hordered, htokens, hruns, hplaced, fun n hn m hm hn' hm' => hplaced.laminar n hn m hm
    (((hruns n hn).resolve_left hn').lt hordered) (((hruns m hm).resolve_left hm').lt hordered)⟩

end Parser

end LuaLint
