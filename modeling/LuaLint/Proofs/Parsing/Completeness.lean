import LuaLint.Proofs.Parsing.ExpressionCompleteness

/-!
# Completeness of the grammar

Every well-formed phrase is read back from its printed tokens, up to offsets. The induction is on
the derivation of well-formedness, with one statement for every kind of phrase (`Complete`) and one
lemma for every rule.

Main statements: `Parser.complete`.
-/

namespace LuaLint

open List LuaLint.Expr Sign

variable {cond callee e : Expr} {es values : List Expr} {method : Option Ident} {form : CallForm}
  {i : Ident} {is : List Ident} {vararg : Option Nat} {b : FuncBody} {n : LocalName}
  {ns : List LocalName} {ss : List Stmt} {arms : List ElseIf} {otherwise : ElsePart}
  {kind : TokenKind} {rest : List Lexed} {endPos fuel pos start thenPos : Nat}

namespace Parser

/-! ## Names -/

theorem moreIdents_reaches {sep : Sign} (hrest : headKind rest ≠ .sign sep) :
    Reaches (moreIdents (.sign sep) fuel) (Ident.lexemesAfter sep is ++ rest) rest fun is' =>
      is'.map Ident.erase = is.map Ident.erase := by
  induction is generalizing fuel with
  | nil =>
    obtain _ | fuel := fuel
    · exact .exhausted
    rw [moreIdents]
    exact .refuse hrest (.pure rfl)
  | cons i is ih =>
    obtain _ | fuel := fuel
    · exact .exhausted
    rw [moreIdents, Ident.lexemesAfter]
    refine .accept rfl (.ident fun i' hi => .bind ih fun is' his => .pure ?_)
    rw [map_cons, hi, his, map_cons]

theorem localName_reaches (hrest : headKind rest ≠ .sign .less) :
    Reaches localName (n.lexemes ++ rest) rest fun n' => n'.erase = n.erase := by
  obtain ⟨i, attrib⟩ := n
  cases attrib with
  | none =>
    refine .ident fun i' hi => .refuse hrest (.pure ?_)
    simp [LocalName.relocate, hi]
  | some a =>
    have hls : LocalName.lexemes ⟨i, some a⟩ =
        [i.lexed, less.lexed, a.toIdent.lexed, greater.lexed] := rfl
    rw [hls]
    refine .ident fun i' hi => .accept rfl (.ident fun w hw => .expect rfl fun t => .pure ?_)
    simp [LocalName.relocate, hi, hw]

theorem localNames_reaches (hless : headKind rest ≠ .sign .less)
    (hcomma : headKind rest ≠ .sign .comma) :
    Reaches (localNames fuel) (LocalName.lexemesOf (n :: ns) ++ rest) rest fun ns' =>
      ns'.map LocalName.erase = (n :: ns).map LocalName.erase := by
  induction ns generalizing n fuel with
  | nil =>
    obtain _ | fuel := fuel
    · exact .exhausted
    rw [localNames, LocalName.lexemesOf]
    refine .bind (localName_reaches hless) fun n' hn => .refuse hcomma (.pure ?_)
    simp [hn]
  | cons n₂ ns ih =>
    have hlexemes : LocalName.lexemesOf (n :: n₂ :: ns) =
        n.lexemes ++ comma.lexed :: LocalName.lexemesOf (n₂ :: ns) := by
      simp [LocalName.lexemesOf]
    obtain _ | fuel := fuel
    · exact .exhausted
    rw [localNames, hlexemes, append_assoc, cons_append]
    refine .bind (localName_reaches (by rintro ⟨⟩)) fun n' hn => .accept rfl ?_
    refine .bind ih fun ns' hns => .pure ?_
    rw [map_cons, hn, hns]
    rfl

theorem params_reaches (hne : is ≠ [] ∨ vararg ≠ none)
    (hcomma : headKind rest ≠ .sign .comma) :
    Reaches (params fuel) (Ident.paramLexemes is vararg ++ rest) rest fun r =>
      r.1.map Ident.erase = is.map Ident.erase ∧
        r.2.map Relocation.forget.offset = vararg.map Relocation.forget.offset := by
  induction is generalizing fuel with
  | nil =>
    cases vararg with
    | none => simp at hne
    | some pos =>
      obtain _ | fuel := fuel
      · exact .exhausted
      rw [params]
      exact .peekKind (.sign .ellipsis) rfl (.take fun t _ _ => .pure ⟨rfl, rfl⟩)
  | cons i is ih =>
    obtain _ | fuel := fuel
    · exact .exhausted
    by_cases hlast : is = [] ∧ vararg = none
    · obtain ⟨rfl, rfl⟩ := hlast
      rw [params]
      refine .peekKind .name rfl (.ident fun i' hi => .refuse hcomma (.pure ?_))
      simp [hi]
    · have hne' := Classical.not_and_iff_not_or_not.mp hlast
      -- Behind a name that is not the last one stands a comma.
      have hlexemes : Ident.paramLexemes (i :: is) vararg =
          i.lexed :: comma.lexed :: Ident.paramLexemes is vararg := by
        cases is <;> cases vararg <;> simp_all [Ident.paramLexemes]
      rw [params, hlexemes]
      refine .peekKind .name rfl (.ident fun i' hi => .accept rfl ?_)
      refine .bind (ih hne') fun r hr => .pure ?_
      exact ⟨by rw [map_cons, hi, hr.1, map_cons], hr.2⟩

theorem funcName_reaches {n : FuncName} (hdot : headKind rest ≠ .sign .dot)
    (hcolon : headKind rest ≠ .sign .colon) :
    Reaches (funcName fuel) (n.lexemes ++ rest) rest fun n' => n'.erase = n.erase := by
  obtain ⟨base, fields, method⟩ := n
  simp only [FuncName.lexemes, cons_append, append_assoc]
  rw [funcName]
  refine .ident fun base' hbase => ?_
  cases method with
  | none =>
    refine .bind (moreIdents_reaches hdot) fun fields' hfields => ?_
    refine .refuse hcolon (.pure ?_)
    simp [FuncName.relocate, hbase, hfields]
  | some m =>
    refine .bind (moreIdents_reaches (by rintro ⟨⟩)) fun fields' hfields => ?_
    refine .accept rfl (.ident fun m' hm => .pure ?_)
    simp [FuncName.relocate, hbase, hfields, hm]

/-! ## Blocks and functions -/

def StmtsComplete (ss : List Stmt) : Prop :=
  ∀ (fuel : Nat) (rest : List Lexed), endsBlock (headKind rest) = true →
    Reaches (statements fuel) (Stmt.lexemesOf ss ++ rest) rest fun ss' =>
      Stmt.eraseAll ss' = Stmt.eraseAll ss

theorem StmtsComplete.block (h : StmtsComplete ss) (hrest : endsBlock (headKind rest) = true) :
    Reaches (block fuel) ((Block.mk pos ss).lexemes ++ rest) rest fun b =>
      b.erase = (Block.mk pos ss).erase := by
  rw [Block.lexemes]
  obtain _ | fuel := fuel
  · exact .exhausted
  rw [Parser.block]
  refine .peekPos fun pos' => .bind (h fuel rest hrest) fun ss' hss => .pure ?_
  simp [Block.relocate, hss]

def BodyComplete (b : FuncBody) : Prop :=
  ∀ (fuel : Nat) (rest : List Lexed),
    Reaches (funcBody fuel) (b.lexemes ++ rest) rest fun b' => b'.erase = b.erase

theorem complete_body {lparen rparen : Nat} {params : List Ident} (h : StmtsComplete ss) :
    BodyComplete (.mk lparen params vararg rparen (.mk pos ss) endPos) := by
  intro fuel rest
  simp only [FuncBody.lexemes, cons_append, append_assoc, nil_append]
  obtain _ | fuel := fuel
  · exact .exhausted
  rw [funcBody]
  refine .expect rfl fun l => ?_
  -- What follows the parameters does not depend on how they were written.
  have hclose : ∀ (names : List Ident) (vararg' : Option Nat),
      names.map Ident.erase = params.map Ident.erase →
      vararg'.map Relocation.forget.offset = vararg.map Relocation.forget.offset →
      Reaches (do
        let rparen ← Parser.expect (.sign .rightParen)
        let body ← Parser.block fuel
        let endPos ← Parser.expectClose (.keyword .end) "function" l.pos
        Pure.pure (FuncBody.mk l.pos names vararg' rparen.pos body endPos))
        (rightParen.lexed :: ((Block.mk pos ss).lexemes ++ Keyword.end.lexed :: rest)) rest
        fun b' => b'.erase =
          (FuncBody.mk lparen params vararg rparen (.mk pos ss) endPos).erase := by
    intro names vararg' hnames hvararg
    refine .expect rfl fun t => .bind (h.block rfl) fun b hb => ?_
    refine .expectClose rfl fun endPos' => .pure ?_
    simp [FuncBody.relocate, hnames, hb, hvararg]
  by_cases hnone : params = [] ∧ vararg = none
  · obtain ⟨rfl, rfl⟩ := hnone
    refine .peekKind (.sign .rightParen) rfl ?_
    simp only [if_true, pure_bind]
    exact hclose [] none rfl rfl
  · have hne := Classical.not_and_iff_not_or_not.mp hnone
    -- A parameter list that is not empty begins with a name or `...`.
    have hfirst : headKind (Ident.paramLexemes params vararg ++ rightParen.lexed ::
        ((Block.mk pos ss).lexemes ++ Keyword.end.lexed :: rest)) ≠ .sign .rightParen := by
      cases params with
      | nil =>
        cases vararg with
        | none => simp at hne
        | some v => rintro ⟨⟩
      | cons i is => cases is <;> cases vararg <;> rintro ⟨⟩
    refine .peekKind _ rfl ?_
    simp only [if_neg hfirst]
    refine .bind (params_reaches hne (by rintro ⟨⟩))
      fun r hr => hclose r.1 r.2 hr.1 hr.2

theorem complete_function (h : BodyComplete b) : ExprComplete (.function pos b) := by
  refine .of_simple (fun _ => ⟨rfl, rfl⟩) (fun fuel rest => ?_) id (fun h => h.elim)
  rw [simpleExpr, lexemes]
  refine .peekKind (.keyword .function) rfl (.take fun t _ _ => ?_)
  refine .bind (h fuel rest) fun b' hb => .pure ?_
  simp [relocate, hb]

/-! ## Statements -/

/-- The tokens with which a statement other than `return` begins. -/
def opens : TokenKind → Bool
  | .keyword .local | .keyword .function | .keyword .if | .keyword .while | .keyword .do => true
  | .keyword .for | .keyword .repeat | .keyword .break | .keyword .goto => true
  | .sign .doubleColon | .sign .leftParen | .name => true
  | _ => false

theorem endsBlock_of_opens (h : opens kind = true) : endsBlock kind = false := by
  unfold opens at h
  split at h
  case h_13 => cases h
  all_goals rfl

theorem opens_of_startsPrimary (h : startsPrimary kind = true) : opens kind = true := by
  unfold startsPrimary at h
  split at h
  · rfl
  · rfl
  · cases h

/-- How a statement is read back, before the semicolon that follows it. -/
structure StmtComplete (s : Stmt) : Prop where
  first : ¬ s.IsReturn → ∀ rest, opens (headKind (s.lexemes ++ rest)) = true
  run : ¬ s.IsReturn → ∀ (fuel : Nat) (rest : List Lexed),
    Reaches (statement fuel) (s.lexemes ++ Sign.semicolon.lexed :: rest)
      (Sign.semicolon.lexed :: rest) fun s' => s'.erase = s.erase
  ret : s.IsReturn → ∀ (fuel : Nat) (rest : List Lexed),
    headKind (s.lexemes ++ rest) = .keyword .return ∧
    Reaches (returnStatement fuel) (s.lexemes ++ Sign.semicolon.lexed :: rest)
      (Sign.semicolon.lexed :: rest) fun s' => s'.erase = s.erase

theorem StmtComplete.of_run {s : Stmt} (hret : ¬ s.IsReturn)
    (hfirst : ∀ rest, opens (headKind (s.lexemes ++ rest)) = true)
    (hrun : ∀ (fuel : Nat) (rest : List Lexed),
      Reaches (statement (fuel + 1)) (s.lexemes ++ Sign.semicolon.lexed :: rest)
        (Sign.semicolon.lexed :: rest) fun s' => s'.erase = s.erase) :
    StmtComplete s where
  first _ := hfirst
  run _ fuel rest := .fueled rfl (fun fuel => hrun fuel rest) fuel
  ret h := absurd h hret

theorem complete_noStmts : StmtsComplete [] := by
  intro fuel rest hrest
  obtain _ | fuel := fuel
  · exact .exhausted
  rw [statements, Stmt.lexemesOf, nil_append]
  refine .peekKind _ rfl ?_
  generalize headKind rest = k at hrest
  split
  · cases hrest
  · cases hrest
  · rw [if_pos hrest]
    exact .pure rfl

theorem statements_semicolon (h : StmtsComplete ss) (hrest : endsBlock (headKind rest) = true) :
    Reaches (statements fuel) (Sign.semicolon.lexed :: (Stmt.lexemesOf ss ++ rest)) rest fun ss' =>
      Stmt.eraseAll ss' = Stmt.eraseAll ss := by
  obtain _ | fuel := fuel
  · exact .exhausted
  rw [statements]
  exact .peekKind (.sign .semicolon) rfl (.take fun t _ _ => h fuel rest hrest)

theorem complete_consStmt {s : Stmt} (hs : StmtComplete s)
    (hlast : s.IsReturn → ss = []) (hss : StmtsComplete ss) : StmtsComplete (s :: ss) := by
  intro fuel rest hrest
  simp only [Stmt.lexemesOf, append_assoc, cons_append]
  obtain _ | fuel := fuel
  · exact .exhausted
  rw [statements]
  by_cases hret : s.IsReturn
  · obtain rfl := hlast hret
    refine .peekKind (.keyword .return) (hs.ret hret fuel _).1 ?_
    refine .bind (hs.ret hret fuel _).2 fun s' hs' => ?_
    refine .accept rfl (.pure ?_)
    simp [Stmt.relocateAll, hs']
  · have hk := hs.first hret (semicolon.lexed :: (Stmt.lexemesOf ss ++ rest))
    have hrun := hs.run hret fuel (Stmt.lexemesOf ss ++ rest)
    have hthen : Reaches (statements fuel) _ _ _ := statements_semicolon hss hrest
    refine .peekKind _ rfl ?_
    generalize headKind (s.lexemes ++ semicolon.lexed :: (Stmt.lexemesOf ss ++ rest)) = k at hk
    split
    · cases hk
    · cases hk
    · simp only [endsBlock_of_opens hk, Bool.false_eq_true, if_false]
      refine .bind hrun fun s' hs' => .bind hthen fun ss' hss' => .pure ?_
      simp [Stmt.relocateAll, hs', hss']

/-! ## Simple statements -/

-- A statement, its tokens and the parser's choice on the first of them are taken apart together.
attribute [local simp] Stmt.lexemes Stmt.relocate statement

theorem complete_brk : StmtComplete (.brk pos) := by
  refine .of_run id (fun _ => rfl) fun fuel rest => ?_
  rw [statement]
  exact .peekKind (.keyword .break) rfl (.take fun _ _ _ => .pure rfl)

theorem complete_goto : StmtComplete (.goto pos i) := by
  refine .of_run id (fun _ => rfl) fun fuel rest => ?_
  rw [statement]
  refine .peekKind (.keyword .goto) rfl (.take fun _ _ _ => .ident fun i' hi => .pure ?_)
  exact congrArg (Stmt.goto 0) hi

theorem complete_label {stop : Nat} : StmtComplete (.label pos i stop) := by
  refine .of_run id (fun _ => rfl) fun fuel rest => ?_
  rw [statement]
  refine .peekKind (.sign .doubleColon) rfl (.take fun _ _ _ => .ident fun i' hi => ?_)
  refine .expect rfl fun t => .pure ?_
  exact congrArg (Stmt.label 0 · 0) hi

theorem complete_ret (h : ∀ e ∈ values, ExprComplete e) : StmtComplete (.ret pos values) where
  first hret := absurd trivial hret
  run hret := absurd trivial hret
  ret _ fuel rest := by
    refine ⟨rfl, ?_⟩
    obtain _ | fuel := fuel
    · exact .exhausted
    rw [returnStatement, Stmt.lexemes]
    refine .take fun t _ _ => ?_
    cases values with
    | nil => exact .peekKind (.sign .semicolon) rfl (.pure rfl)
    | cons e es =>
      refine .peekKind _ rfl ?_
      have hfirst := (h e (mem_cons_self ..)).first
        (lexemesAfter es ++ semicolon.lexed :: rest)
      rw [← append_assoc, ← lexemesOf] at hfirst
      have hrun : Reaches (exprList fuel) (_ ++ semicolon.lexed :: rest) _ _ :=
        exprList_reaches h (.sign .semicolon) rfl ⟨rfl, rfl⟩ (by decide)
      generalize headKind (lexemesOf (e :: es) ++ semicolon.lexed :: rest) = k at hfirst
      have hvalue : (endsBlock k || decide (k = .sign .semicolon)) = false := by
        unfold startsExpr at hfirst
        split at hfirst
        case h_16 => cases hfirst
        all_goals rfl
      simp only [hvalue, Bool.false_eq_true, if_false]
      refine .bind hrun fun es' hes => .pure ?_
      simp [hes]

theorem headKind_locals (n : LocalName) (ns : List LocalName) (rest : List Lexed) :
    headKind (LocalName.lexemesOf (n :: ns) ++ rest) = .name := by
  obtain ⟨i, attrib⟩ := n
  cases ns <;> cases attrib <;> rfl

theorem complete_localAssign (h : ∀ e ∈ values, ExprComplete e) :
    StmtComplete (.localAssign pos (n :: ns) values) := by
  refine .of_run id (fun _ => rfl) fun fuel rest => ?_
  simp only [Stmt.lexemes, cons_append, append_assoc]
  rw [statement]
  refine .peekKind (.keyword .local) rfl ?_
  obtain _ | fuel := fuel
  · exact .exhausted
  rw [localStatement]
  refine .take fun t _ _ => .refuse (by rw [headKind_locals]; decide) ?_
  cases values with
  | nil =>
    refine .bind (localNames_reaches (by rintro ⟨⟩) (by rintro ⟨⟩)) fun ns' hns => ?_
    refine .refuse (by rintro ⟨⟩) (.pure ?_)
    simp [hns]
  | cons e es =>
    have hvalues : valueLexemes (e :: es) =
        assign.lexed :: lexemesOf (e :: es) := by
      simp [valueLexemes, lexemesOf]
    rw [hvalues, cons_append]
    refine .bind (localNames_reaches (by rintro ⟨⟩) (by rintro ⟨⟩)) fun ns' hns => ?_
    refine .accept rfl (.bind (exprList_reaches h (.sign .semicolon) rfl ⟨rfl, rfl⟩
      (by decide)) fun es' hes => .pure ?_)
    simp [hns, hes]

theorem complete_localFunction (h : BodyComplete b) : StmtComplete (.localFunction pos i b) := by
  refine .of_run id (fun _ => rfl) fun fuel rest => ?_
  simp only [Stmt.lexemes, cons_append]
  rw [statement]
  refine .peekKind (.keyword .local) rfl ?_
  obtain _ | fuel := fuel
  · exact .exhausted
  rw [localStatement]
  refine .take fun t _ _ => .accept rfl (.ident fun i' hi => ?_)
  refine .bind (h _ _) fun b' hb => .pure ?_
  simp [hi, hb]

theorem complete_functionStmt {n : FuncName} (h : BodyComplete b) :
    StmtComplete (.function pos n b) := by
  have hopen : ∀ rest, headKind (b.lexemes ++ rest) = .sign .leftParen := by
    intro rest
    cases b
    rw [FuncBody.lexemes]
    rfl
  refine .of_run id (fun _ => rfl) fun fuel rest => ?_
  simp only [Stmt.lexemes, cons_append, append_assoc]
  rw [statement]
  refine .peekKind (.keyword .function) rfl (.take fun t _ _ => ?_)
  refine .bind (funcName_reaches (by rw [hopen]; decide) (by rw [hopen]; decide))
    fun n' hn => ?_
  refine .bind (h _ _) fun b' hb => .pure ?_
  simp [hn, hb]

/-! ## Assignments and calls -/

theorem isTarget_of_erase {e' : Expr} (h : e'.erase = e.erase) (he : e.IsTarget) : e'.IsTarget := by
  have hiff : ∀ x : Expr, x.erase.IsTarget ↔ x.IsTarget := by
    intro x
    cases x <;> rw [erase] <;> rfl
  rwa [← hiff, h, hiff]

theorem isCallable_of_isTarget (h : e.IsTarget) : e.IsCallable := by
  cases e with
  | name | field | element => trivial
  | _ => exact h.elim

theorem assignable_reaches (h : e.IsTarget) (ls : List Lexed) :
    Reaches (assignable e) ls ls (· = e) := by
  cases e with
  | name | field | element => exact .pure rfl
  | _ => exact h.elim

theorem target_reaches (h : ExprComplete e) (ht : e.IsTarget)
    (hrest : startsSuffix (headKind rest) = false) :
    Reaches (suffixedExpr fuel) (e.lexemes ++ rest) rest fun e' =>
      e'.erase = e.erase ∧ e'.IsTarget :=
  ((h.suffixed (isCallable_of_isTarget ht)).suffixedExpr hrest).mono
    fun _ he => ⟨he, isTarget_of_erase he ht⟩

theorem moreTargets_reaches (h : ∀ e ∈ es, ExprComplete e ∧ e.IsTarget) :
    Reaches (moreTargets fuel) (Expr.lexemesAfter es ++ Sign.assign.lexed :: rest)
      (Sign.assign.lexed :: rest) fun es' => Expr.eraseAll es' = Expr.eraseAll es := by
  induction es generalizing fuel with
  | nil =>
    obtain _ | fuel := fuel
    · exact .exhausted
    rw [moreTargets, lexemesAfter, nil_append]
    exact .refuse (by rintro ⟨⟩) (.pure rfl)
  | cons e es ih =>
    rw [forall_mem_cons] at h
    simp only [lexemesAfter, cons_append, append_assoc]
    obtain _ | fuel := fuel
    · exact .exhausted
    have hsuffix : startsSuffix (headKind (lexemesAfter es ++ assign.lexed :: rest)) =
        false := by cases es <;> rfl
    rw [moreTargets]
    refine .accept rfl (.bind (target_reaches h.1.1 h.1.2 hsuffix) fun e' he => ?_)
    refine .bind (assignable_reaches he.2 _) fun e'' he'' => ?_
    subst he''
    refine .bind (ih h.2) fun es' hes => .pure ?_
    simp [relocateAll, he.1, hes]

theorem statement_of_primary {ls : List Lexed} {P : Stmt → Prop}
    (hk : startsPrimary (headKind ls) = true) (h : Reaches (exprStatement fuel) ls rest P) :
    Reaches (statement (fuel + 1)) ls rest P := by
  rw [statement]
  refine .peekKind _ rfl ?_
  generalize headKind ls = k at hk
  split
  case h_11 => exact h
  all_goals cases hk

theorem complete_assign {targets : List Expr} {equal : Nat} {v : Expr}
    (htargets : ∀ x ∈ e :: targets, x.IsTarget)
    (h : ∀ x ∈ e :: targets, ExprComplete x) (hvalues : ∀ x ∈ v :: values, ExprComplete x) :
    StmtComplete (.assign (e :: targets) equal (v :: values)) := by
  have hall : ∀ x ∈ e :: targets, ExprComplete x ∧ x.IsTarget :=
    fun x hx => ⟨h x hx, htargets x hx⟩
  rw [forall_mem_cons] at hall
  obtain ⟨⟨he, ht⟩, hrest⟩ := hall
  have hprimary := he.primary (isCallable_of_isTarget ht)
  have hls : (Stmt.assign (e :: targets) equal (v :: values)).lexemes =
      e.lexemes ++ (lexemesAfter targets ++
        assign.lexed :: lexemesOf (v :: values)) := by
    rw [Stmt.lexemes, lexemesOf, append_assoc]
  refine .of_run id (fun rest => ?opens) fun fuel rest => ?_
  case opens =>
    rw [hls, append_assoc]
    exact opens_of_startsPrimary (hprimary _)
  rw [hls]
  simp only [append_assoc, cons_append]
  refine statement_of_primary (hprimary _) ?_
  -- After the first target comes a comma or the sign of the assignment.
  have hsuffix : ∀ ls, startsSuffix (headKind (lexemesAfter targets ++
      assign.lexed :: ls)) = false := by cases targets <;> exact fun _ => rfl
  obtain _ | fuel := fuel
  · exact .exhausted
  rw [exprStatement]
  refine .bind (target_reaches he ht (hsuffix _)) fun e' he' => ?_
  refine .peekKind _ rfl ?_
  have hcond : ∀ ls, (decide (headKind (lexemesAfter targets ++ assign.lexed :: ls) =
      .sign .assign) || decide (headKind (lexemesAfter targets ++ assign.lexed :: ls) =
      .sign .comma)) = true := by cases targets <;> exact fun _ => rfl
  simp only [hcond, if_true]
  refine .bind (assignable_reaches he'.2 _) fun e'' he'' => ?_
  subst he''
  refine .bind (moreTargets_reaches hrest) fun targets' htargets' => ?_
  refine .expect rfl fun t => ?_
  refine .bind (exprList_reaches hvalues (.sign .semicolon) rfl ⟨rfl, rfl⟩
    (by decide)) fun values' hvalues' => .pure ?_
  simp [relocateAll, he'.1, htargets', hvalues']

theorem erase_eq_call {args : List Expr} (h : e.erase = .call callee method form args) :
    ∃ callee' method' form' args', e = .call callee' method' form' args' ∧
      callee'.erase = callee ∧ method'.map Ident.erase = method ∧ form'.erase = form ∧
      Expr.eraseAll args' = args := by
  cases e with
  | call callee' method' form' args' =>
    rw [erase] at h
    cases h
    exact ⟨_, _, _, _, rfl, rfl, rfl, rfl, rfl⟩
  | _ => rw [erase] at h; cases h

theorem complete_callStmt (h : ExprComplete (.call callee method form es)) :
    StmtComplete (.call callee method form es) := by
  have hls : (Stmt.call callee method form es).lexemes =
      (call callee method form es).lexemes := by
    rw [Stmt.lexemes, lexemes]
  have hprimary := h.primary trivial
  refine .of_run id (fun _ => hls ▸ opens_of_startsPrimary (hprimary _)) fun fuel rest => ?_
  rw [hls]
  refine statement_of_primary (hprimary _) ?_
  obtain _ | fuel := fuel
  · exact .exhausted
  rw [exprStatement]
  refine .bind ((h.suffixed trivial).suffixedExpr rfl) fun e' he => ?_
  rw [erase] at he
  obtain ⟨callee', method', form', es', rfl, hcallee, hmethod, hform, hes⟩ := erase_eq_call he
  refine .peekKind (.sign .semicolon) rfl (.pure ?_)
  simp only [Stmt.relocate, hcallee, hmethod, hform, hes]

/-! ## Compound statements -/

theorem complete_doBlock (h : StmtsComplete ss) :
    StmtComplete (.doBlock pos (.mk start ss) endPos) := by
  refine .of_run id (fun _ => rfl) fun fuel rest => ?_
  simp only [Stmt.lexemes, cons_append, append_assoc, nil_append]
  rw [statement]
  refine .peekKind (.keyword .do) rfl (.take fun t _ _ => ?_)
  refine .bind (h.block rfl) fun b hb => .expectClose rfl fun pos' => .pure ?_
  simp [hb]

theorem complete_whileLoop (hcond : ExprComplete cond) (h : StmtsComplete ss) :
    StmtComplete (.whileLoop pos cond (.mk start ss) endPos) := by
  refine .of_run id (fun _ => rfl) fun fuel rest => ?_
  simp only [Stmt.lexemes, cons_append, append_assoc, nil_append]
  rw [statement]
  refine .peekKind (.keyword .while) rfl (.take fun t _ _ => ?_)
  refine .bind (hcond.expr ⟨rfl, rfl⟩) fun cond' hcond' => .expect rfl fun t => ?_
  refine .bind (h.block rfl) fun b hb => .expectClose rfl fun pos' => .pure ?_
  simp [hcond', hb]

theorem complete_repeatLoop {untilPos : Nat} (h : StmtsComplete ss) (hcond : ExprComplete cond) :
    StmtComplete (.repeatLoop pos (.mk start ss) untilPos cond) := by
  refine .of_run id (fun _ => rfl) fun fuel rest => ?_
  simp only [Stmt.lexemes, cons_append, append_assoc]
  rw [statement]
  refine .peekKind (.keyword .repeat) rfl (.take fun t _ _ => ?_)
  refine .bind (h.block rfl) fun b hb => .expectClose rfl fun pos' => ?_
  refine .bind (hcond.expr ⟨rfl, rfl⟩) fun cond' hcond' => .pure ?_
  simp [hcond', hb]

theorem complete_genericFor (hes : ∀ x ∈ e :: es, ExprComplete x) (h : StmtsComplete ss) :
    StmtComplete (.genericFor pos (i :: is) (e :: es) (.mk start ss) endPos) := by
  refine .of_run id (fun _ => rfl) fun fuel rest => ?_
  simp only [Stmt.lexemes, Ident.lexemesOf, cons_append, append_assoc, nil_append]
  rw [statement]
  refine .peekKind (.keyword .for) rfl ?_
  obtain _ | fuel := fuel
  · exact .exhausted
  rw [forStatement]
  refine .take fun t _ _ => .ident fun i' hi => .refuse ?_ ?_
  · cases is <;> rintro ⟨⟩
  · refine .bind (moreIdents_reaches (by rintro ⟨⟩)) fun is' his => ?_
    refine .expect rfl fun t => ?_
    refine .bind (exprList_reaches hes (.keyword .do) rfl ⟨rfl, rfl⟩ (by decide))
      fun es' hes' => .expect rfl fun t => ?_
    refine .bind (h.block rfl) fun b hb => .expectClose rfl fun pos' => .pure ?_
    simp [hi, his, hes', hb]

theorem complete_numericFor {var : Ident} {first limit : Expr} {step : Option Expr}
    (hfirst : ExprComplete first) (hlimit : ExprComplete limit)
    (hstep : ∀ e ∈ step.toList, ExprComplete e) (h : StmtsComplete ss) :
    StmtComplete (.numericFor pos var first limit step (.mk start ss) endPos) := by
  refine .of_run id (fun _ => rfl) fun fuel rest => ?_
  simp only [Stmt.lexemes, cons_append, append_assoc, nil_append]
  rw [statement]
  refine .peekKind (.keyword .for) rfl ?_
  obtain _ | fuel := fuel
  · exact .exhausted
  rw [forStatement]
  refine .take fun t _ _ => .ident fun var' hvar => .accept rfl ?_
  refine .bind (hfirst.expr ⟨rfl, rfl⟩) fun first' hfirst' => .expect rfl fun c => ?_
  cases step with
  | none =>
    simp only [stepLexemes, nil_append]
    refine .bind (hlimit.expr ⟨rfl, rfl⟩) fun limit' hlimit' => ?_
    refine .refuse (by rintro ⟨⟩) ?_
    simp only [Bool.false_eq_true, if_false, pure_bind]
    refine .expect rfl fun d => .bind (h.block rfl) fun b hb => ?_
    refine .expectClose rfl fun pos' => .pure ?_
    simp [relocateStep, hvar, hfirst', hlimit', hb]
  | some e =>
    have he := hstep e (by simp)
    simp only [stepLexemes, cons_append]
    refine .bind (hlimit.expr ⟨rfl, rfl⟩) fun limit' hlimit' => ?_
    refine .accept rfl ?_
    simp only [if_true, bind_map_left]
    refine .bind (he.expr ⟨rfl, rfl⟩) fun e' he' => ?_
    refine .expect rfl fun d => .bind (h.block rfl) fun b hb => ?_
    refine .expectClose rfl fun pos' => .pure ?_
    simp [relocateStep, hvar, hfirst', hlimit', he', hb]

/-! ## Conditionals -/

def ElseComplete : ElsePart → Prop
  | .absent => True
  | .present _ (.mk _ ss) => StmtsComplete ss

/-- How the branches of a conditional after the first one are read back. -/
structure BranchesComplete (arms : List ElseIf) (otherwise : ElsePart) : Prop where
  first : ∀ rest, endsBlock (headKind (ElseIf.lexemesOf arms ++ (otherwise.lexemes ++
    Keyword.end.lexed :: rest))) = true
  arms : ∀ (fuel : Nat) (rest : List Lexed),
    Reaches (elseIfs fuel) (ElseIf.lexemesOf arms ++ (otherwise.lexemes ++
      Keyword.end.lexed :: rest)) (otherwise.lexemes ++ Keyword.end.lexed :: rest)
      fun arms' => ElseIf.eraseAll arms' = ElseIf.eraseAll arms
  otherwise : ElseComplete otherwise

theorem endsBlock_otherwise (otherwise : ElsePart) (rest : List Lexed) :
    endsBlock (headKind (otherwise.lexemes ++ Keyword.end.lexed :: rest)) = true ∧
      headKind (otherwise.lexemes ++ Keyword.end.lexed :: rest) ≠ .keyword .elseif := by
  cases otherwise <;> exact ⟨rfl, by rintro ⟨⟩⟩

theorem complete_lastBranch (h : ElseComplete otherwise) : BranchesComplete [] otherwise where
  first rest := by
    rw [ElseIf.lexemesOf, nil_append]
    exact (endsBlock_otherwise otherwise rest).1
  arms fuel rest := by
    have hne := (endsBlock_otherwise otherwise rest).2
    obtain _ | fuel := fuel
    · exact .exhausted
    rw [elseIfs, ElseIf.lexemesOf, nil_append]
    refine .peekKind _ rfl ?_
    generalize headKind (otherwise.lexemes ++ Keyword.end.lexed :: rest) = k at hne
    split
    · exact absurd rfl hne
    · exact .pure rfl
  otherwise := h

theorem complete_elseIfBranch (hcond : ExprComplete cond) (hss : StmtsComplete ss)
    (h : BranchesComplete arms otherwise) :
    BranchesComplete (.mk pos cond thenPos (.mk start ss) :: arms) otherwise where
  first _ := rfl
  arms fuel rest := by
    simp only [ElseIf.lexemesOf, ElseIf.lexemes, cons_append, append_assoc]
    obtain _ | fuel := fuel
    · exact .exhausted
    rw [elseIfs]
    refine .peekKind (.keyword .elseif) rfl (.take fun t _ _ => ?_)
    refine .bind (hcond.expr ⟨rfl, rfl⟩) fun cond' hcond' => .expect rfl fun t' => ?_
    refine .bind (hss.block (h.first rest)) fun b hb => ?_
    refine .bind (h.arms fuel rest) fun arms' harms => .pure ?_
    simp [ElseIf.relocateAll, ElseIf.relocate, hcond', hb, harms]
  otherwise := h.otherwise

theorem complete_ifThen (hcond : ExprComplete cond) (hss : StmtsComplete ss)
    (h : BranchesComplete arms otherwise) :
    StmtComplete (.ifThen pos cond thenPos (.mk start ss) arms otherwise endPos) := by
  refine .of_run id (fun _ => rfl) fun fuel rest => ?_
  simp only [Stmt.lexemes, cons_append, append_assoc, nil_append]
  rw [statement]
  refine .peekKind (.keyword .if) rfl ?_
  obtain _ | fuel := fuel
  · exact .exhausted
  rw [ifStatement]
  refine .take fun t _ _ => ?_
  refine .bind (hcond.expr ⟨rfl, rfl⟩) fun cond' hcond' => .expect rfl fun t' => ?_
  refine .bind (hss.block (h.first _)) fun b hb => ?_
  refine .bind (h.arms _ _) fun arms' harms => ?_
  have hotherwise := h.otherwise
  cases otherwise with
  | absent =>
    refine .peekKind (.keyword .end) rfl (.expectClose rfl fun pos' => .pure ?_)
    simp [ElsePart.relocate, hcond', hb, harms]
  | present elsePos body =>
    obtain ⟨start', ss'⟩ := body
    simp only [ElsePart.lexemes, cons_append]
    refine .peekKind (.keyword .else) rfl (.take fun e _ _ => ?_)
    refine .bind (StmtsComplete.block hotherwise rfl) fun b' hb' => ?_
    refine .expectClose rfl fun pos' => .pure ?_
    simp [ElsePart.relocate, hcond', hb, harms, hb']

/-! ## All phrases -/

def Complete : Phrase → Prop
  | .expr e => ExprComplete e
  | .exprs es => ∀ e ∈ es, ExprComplete e
  | .args form es => ArgsComplete form es
  | .field f => FieldComplete f
  | .fields fs => ∀ f ∈ fs, FieldComplete f
  | .body b => BodyComplete b
  | .stmt s => StmtComplete s
  | .stmts ss => StmtsComplete ss
  | .branches arms otherwise _ => BranchesComplete arms otherwise

/-- Every well-formed phrase is read back, when its string literals are taken for what they
spell. -/
theorem complete {lawful : Word → Prop} {p : Phrase} (h : WellFormed lawful p)
    (hstring : ∀ raw value, lawful (.string raw value) → StringReads raw value) : Complete p := by
  induction h with
  | nil => exact complete_nil
  | bool => exact complete_bool
  | number _ => exact complete_number
  | string hw => exact complete_string (hstring _ _ hw)
  | vararg => exact complete_vararg
  | name _ => exact complete_name
  | functionExpr _ ih => exact complete_function ih
  | table _ ih => exact complete_table ih
  | binary _ hl _ hr ihl ihr => exact complete_binary ihl hl ihr hr
  | unary _ ha ih => exact complete_unary ih ha
  | paren _ ih => exact complete_paren ih
  | fieldAccess _ hc _ ih => exact complete_field ih hc
  | element _ hc _ ih ihk => exact complete_element ih hc ihk
  | call _ hc _ _ ih iha => exact complete_call ih hc iha
  | noExprs => exact forall_mem_nil _
  | consExpr _ _ ih ihs => exact forall_mem_cons.mpr ⟨ih, ihs⟩
  | argList _ ih => exact complete_argList ih
  | bareArg _ hb ih => exact complete_bareArg ih hb
  | positional _ ih => exact complete_positional ih
  | named _ _ ih => exact complete_named ih
  | keyed _ _ ihk ih => exact complete_keyed ihk ih
  | noFields => exact forall_mem_nil _
  | consField _ _ ih ihs => exact forall_mem_cons.mpr ⟨ih, ihs⟩
  | body _ _ ih => exact complete_body ih
  | localAssign hne _ _ ih =>
    obtain ⟨n, ns, rfl⟩ := exists_cons_of_ne_nil hne
    exact complete_localAssign ih
  | assign hne ht _ hnv _ ih ihv =>
    obtain ⟨e, es, rfl⟩ := exists_cons_of_ne_nil hne
    obtain ⟨v, vs, rfl⟩ := exists_cons_of_ne_nil hnv
    exact complete_assign ht ih ihv
  | callStmt _ ih => exact complete_callStmt ih
  | doBlock _ ih => exact complete_doBlock ih
  | whileLoop _ _ ihc ih => exact complete_whileLoop ihc ih
  | repeatLoop _ _ ih ihc => exact complete_repeatLoop ih ihc
  | ifThen _ _ _ ihc ih ihb => exact complete_ifThen ihc ih ihb
  | numericFor _ _ _ _ _ ihf ihl ihs ih => exact complete_numericFor ihf ihl ihs ih
  | genericFor hne _ hnes _ _ ihe ih =>
    obtain ⟨i, is, rfl⟩ := exists_cons_of_ne_nil hne
    obtain ⟨e, es, rfl⟩ := exists_cons_of_ne_nil hnes
    exact complete_genericFor ihe ih
  | functionStmt _ _ ih => exact complete_functionStmt ih
  | localFunction _ _ ih => exact complete_localFunction ih
  | ret _ ih => exact complete_ret ih
  | brk => exact complete_brk
  | goto _ => exact complete_goto
  | label _ => exact complete_label
  | noStmts => exact complete_noStmts
  | consStmt _ hr _ ih ihs => exact complete_consStmt ih hr ihs
  | noBranch => exact complete_lastBranch trivial
  | elseBranch _ ih => exact complete_lastBranch ih
  | elseIfBranch _ _ _ ihc ih ihb => exact complete_elseIfBranch ihc ih ihb

end Parser

end LuaLint
