import LuaLint.Proofs.Lint.Labels

/-!
# Comments in empty arms

Where comments count, an arm without statements is passed over if a comment ends in the range that
would be reported. Comments in its block do. So do comments in its condition, comments that end
where the arm begins, and, in the range of an `if`, comments in later arms.

Main statements: `Arm.touches_span`, `Lint.emptyIf_commentsCount`.
-/

namespace LuaLint

open List

namespace Arm

/-- A range lies between the word that opens the block and the word that ends it. -/
def holds (a : Arm) (c : Span) : Bool := a.opening.stop ≤ c.start && c.stop ≤ a.closing

/-- A range ends where the arm begins, or lies in the condition or behind the block. -/
def strays (a : Arm) (c : Span) : Bool :=
  c.stop = a.keyword.start || (a.keyword.stop ≤ c.start && c.stop ≤ a.opening.start) ||
    (a.closing ≤ c.start && c.stop ≤ a.stop)

/-- A comment ends in the range of an arm that holds it or that it strays to. -/
theorem touches_span {a : Arm} {c : Span} {ts : List Token} (h : a.Written ts) (hts : Ordered ts)
    (hc : c.start < c.stop) (hapart : ∀ t ∈ ts, c.stop ≤ t.pos ∨ t.stop ≤ c.start) :
    a.span.touches c.stop = (a.holds c || a.strays c) := by
  obtain ⟨hkeyword, hopening, hopens, hcloses, hstop⟩ := h.bounds hts
  have hword : c.stop ≤ a.keyword.start ∨ a.keyword.stop ≤ c.start := by
    obtain ⟨t, ht, heq⟩ := h.keyword
    exact heq ▸ hapart t ht
  have hopen : c.stop ≤ a.opening.start ∨ a.opening.stop ≤ c.start := by
    obtain ⟨t, ht, -, heq⟩ := h.opening
    exact heq ▸ hapart t ht
  have hclose : c.stop ≤ a.closing ∨ a.closing ≤ c.start := by
    obtain ⟨t, ht, -, heq⟩ := h.closing
    have hlt := hts.nonempty t ht
    have := hapart t ht
    omega
  rw [Bool.eq_iff_iff, Span.touches_iff]
  simp only [span, holds, strays, Bool.or_eq_true, Bool.and_eq_true, decide_eq_true_eq]
  omega

end Arm

theorem Parser.apart_of_comment {source : Bytes} {chunk : Chunk} {c : Comment} {t : Token}
    (h : parse source = .ok chunk) (hc : c ∈ chunk.comments) (ht : t ∈ Lexer.codeTokens source) :
    c.span.stop ≤ t.pos ∨ t.stop ≤ c.span.start := by
  obtain ⟨u, hu, hkind, hspan, -⟩ := exists_token_of_comment ((chunk_of_parse h).2.2.1 ▸ hc)
  have hstop : u.stop = u.pos + u.lexeme.length := by rw [Token.stop, Token.text, hkind]
  have hproper := (chunk_of_parse h).1.reads.isProper t ht
  have hend : t.stop = t.pos + t.lexeme.length := by rw [Token.stop, Token.text_eq_lexeme hproper]
  obtain ⟨before, after, htokens⟩ := append_of_mem hu
  have hordered := (Lexer.tiles_tokens source).ordered
  have hmem := (mem_filter.mp ht).1
  rw [htokens] at hordered hmem
  obtain ⟨-, hafter, hbefore⟩ := pairwise_append.mp hordered
  rw [hspan, hstop, hend]
  rcases mem_append.mp hmem with hmem | hmem
  · exact .inr (hbefore t hmem u mem_cons_self)
  · rcases mem_cons.mp hmem with rfl | hmem
    · rw [hkind] at hproper
      cases hproper
    · exact .inl ((pairwise_cons.mp hafter).1 t hmem)

def Node.arms : Node → List Arm
  | .stmt s => s.arms
  | _ => []

def Chunk.arms (c : Chunk) : List Arm := c.nodes.flatMap Node.arms

theorem Parser.hasCommentIn_arm {source : Bytes} {chunk : Chunk}
    (h : parse source = .ok chunk) {a : Arm}
    (ha : a.Written (Lexer.codeTokens source)) :
    chunk.hasCommentIn a.span = chunk.comments.any fun c => a.holds c.span || a.strays c.span := by
  rw [Chunk.hasCommentIn, Bool.eq_iff_iff, any_eq_true, any_eq_true]
  refine exists_congr fun c => and_congr_right fun hc => ?_
  rw [Arm.touches_span ha (nested_of_parse h).ordered (inside_comment h hc).1 fun t =>
    apart_of_comment h hc]

/-- Where comments count, the arms that are reported are those without statements that no comment
lies in, or strays into. -/
theorem Lint.emptyIf_commentsCount {source : Bytes} (input : LintInput) {o : LintOptions}
    (h : Parser.parse source = .ok input.chunk) (ho : o.commentsCount = true) :
    (∀ a ∈ input.chunk.arms, a.Written (Lexer.codeTokens source)) ∧
    Lint.emptyIf.findings o input = (input.chunk.arms.filter fun a => a.stmts.isEmpty &&
        !input.chunk.comments.any fun c => a.holds c.span || a.strays c.span).map fun a =>
      .about a.span a.message := by
  have hwritten : ∀ node ∈ input.chunk.nodes, ∀ a ∈ node.arms,
      a.Written (Lexer.codeTokens source) := by
    intro node hnode
    cases node with
    | stmt s => exact Parser.written_arms h hnode
    | _ => simp [Node.arms]
  refine ⟨fun a ha => ?_, ?_⟩
  · obtain ⟨node, hnode, ha⟩ := mem_flatMap.mp ha
    exact hwritten node hnode a ha
  · rw [Lint.findings, LintInput.emptyConditionals, Chunk.arms, filter_flatMap, map_flatMap, ho]
    refine flatMap_congr fun node hnode => ?_
    cases node with
    | stmt s =>
      simp only [Stmt.emptyArms_eq, Arm.said, filter_map, map_map, filter_filter, Bool.true_and]
      refine congrArg (map _) (filter_congr fun a ha => ?_)
      rw [Function.comp, Parser.hasCommentIn_arm h (hwritten _ hnode a ha), Bool.and_comm]
    | _ => rfl

/-- One of the arms without statements has a comment in its block. -/
theorem Lint.emptyIf_commentsCount_block :
    let source : Bytes := "if a then f() elseif b then --[[c]] elseif c then else end"
    let o : LintOptions := { LintOptions.default with commentsCount := true }
    ∃ chunk, Parser.parse source = .ok chunk ∧
      (chunk.arms.map fun a => a.stmts.isEmpty) = [false, true, true, true] ∧
      Lint.emptyIf.findings o (.ofChunk source chunk .empty) =
        [.about ⟨36, 50⟩ "empty elseif block", .about ⟨50, 58⟩ "empty else block"] := by
  intro source o
  have hinput : ∃ chunk ∈ (Parser.parse source).toOption,
      (chunk.arms.map fun a => a.stmts.isEmpty) = [false, true, true, true] ∧
      ((chunk.arms.filter fun a => a.stmts.isEmpty &&
        !chunk.comments.any fun c => a.holds c.span || a.strays c.span).map fun a =>
          Finding.about a.span a.message) =
        [.about ⟨36, 50⟩ "empty elseif block", .about ⟨50, 58⟩ "empty else block"] := by
    decide +kernel
  obtain ⟨chunk, hparse, harms, hfound⟩ := hinput
  have hparse := toOption_eq_some_iff.mp hparse
  exact ⟨chunk, hparse, harms,
    (Lint.emptyIf_commentsCount (.ofChunk source chunk .empty) hparse rfl).2.trans hfound⟩

/-- There is nothing in the block of the first arm. It is passed over for a comment behind
`else`. -/
theorem Lint.emptyIf_commentsCount_later :
    let source : Bytes := "if true then\nelse\n  -- later\n  print(1)\nend"
    let o : LintOptions := { LintOptions.default with commentsCount := true }
    ∃ chunk ∈ (Parser.parse source).toOption,
      ((chunk.arms.filter fun a => a.stmts.isEmpty && !chunk.comments.any fun c =>
        a.holds c.span).map Arm.span) = [⟨0, 43⟩] ∧
      Lint.emptyIf.findings o (.ofChunk source chunk .empty) = [] := by
  decide +kernel

end LuaLint
