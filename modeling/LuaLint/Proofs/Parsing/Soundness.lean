import LuaLint.Proofs.Grammar.Precedence
import LuaLint.Proofs.Parsing.Agreement

/-!
# Soundness of the grammar

Every successful run of a parsing function takes exactly the tokens of the phrase that it returns,
and that phrase is well formed. On the same stream elsewhere it returns the same phrase elsewhere.
The functions call each other with less and less fuel, so what they all do with some fuel (`Sound`)
is established together, by induction on the fuel; the step for each of them is a lemma of its own.
A call is paid for by the tokens taken before it, so that sixteen units for each token suffice.

Main statements: `Parser.sound`.
-/

namespace LuaLint

open List Phrase BinaryOp Reads Token

/-- A phrase that is well formed and written by some tokens. -/
structure Phrase.Read (lawful : Word → Prop) (p : Phrase) (ts : List Token) : Prop where
  reads : Reads p ts
  wellFormed : WellFormed lawful p

/-- A sequence that may be empty. -/
def Phrase.IsList : Phrase → Prop
  | .exprs _ | .fields _ | .stmts _ => True
  | _ => False

theorem Reads.length_pos {p : Phrase} {ts : List Token} (h : Reads p ts) (hp : ¬ p.IsList) :
    0 < ts.length := by
  induction h with
  | bareArg _ _ ih | positional _ ih | callStmt _ ih => exact ih id
  | _ => grind [Phrase.IsList]

namespace Parser

variable {m : Passage} {γ δ : Type} {first : Token → Prop} {acc : List Token} {fuel budget : Nat}
  {Q : γ → δ → List Token → Token → Prop} {kind : TokenKind}

instance (word : Keyword) : Fact (TokenKind.keyword word).IsFixed := ⟨trivial⟩

instance (sign : Sign) : Fact (TokenKind.sign sign).IsFixed := ⟨trivial⟩

instance (op : BinaryOp) : Fact op.token.IsFixed := ⟨by cases op <;> trivial⟩

instance (op : UnaryOp) : Fact op.token.IsFixed := ⟨by cases op <;> trivial⟩

/-! ## What the parsing functions do -/

/-- A statement that may stand before others. -/
abbrev ReadInner (m : Passage) (st : Stmt) (ts : List Token) : Prop :=
  Read m.lawful (.stmt st) ts ∧ ¬ st.IsReturn

abbrev ReadAs (m : Passage) (P : Expr → Prop) (e : Expr) (ts : List Token) : Prop :=
  Read m.lawful (.expr e) ts ∧ P e

/-- The next token is not a binary operator that binds more tightly than `limit`. -/
def Within (limit : Nat) (t : Token) : Prop :=
  ∀ op, BinaryOp.ofToken? t.kind = some op → op.leftPower ≤ limit

abbrev ReadWithin (m : Passage) (limit : Nat) (e e' : Expr) (ts : List Token)
    (next : Token) : Prop :=
  (Read m.lawful (.expr e) ts ∧ e.Exceeds limit ∧ Within limit next) ∧ e' = e.relocate m.r

/-- Tokens of a block. It begins at its first token, or at the token behind it if it has none. -/
abbrev ReadBlock (m : Passage) (b b' : Block) (ts : List Token) (next : Token) : Prop :=
  (∃ ss, b = .mk (firstPos (ts ++ [next])) ss ∧ Read m.lawful (.stmts ss) ts) ∧ b' = b.relocate m.r

/-- Tokens of the `elseif` arms before whatever ends a conditional statement. -/
abbrev ReadArms (m : Passage) (arms arms' : List ElseIf) (ts : List Token) (next : Token) : Prop :=
  (∀ otherwise endPos us, us.head? = some next → Read m.lawful (.branches [] otherwise endPos) us →
    Read m.lawful (.branches arms otherwise endPos) (ts ++ us)) ∧
  arms' = ElseIf.relocateAll m.r arms

/-- Tokens of the targets behind the first one. -/
abbrev ReadTargets (m : Passage) (es : List Expr) (ts : List Token) : Prop :=
  (∀ e ∈ es, e.IsTarget) ∧ ∀ e us, Read m.lawful (.expr e) us →
    Read m.lawful (.exprs (e :: es)) (us ++ ts)

abbrev ReadSuffixed (m : Passage) (e e' : Expr) (ts : List Token) (_ : Token) : Prop :=
  ReadAs m Expr.IsCallable e ts ∧ e' = e.relocate m.r

def relocateParams (r : Relocation) (ps : List Ident × Option Nat) : List Ident × Option Nat :=
  (ps.1.map (Ident.relocate r), ps.2.map r.offset)

def relocateArgs (r : Relocation) (args : CallForm × List Expr) : CallForm × List Expr :=
  (args.1.relocate r, Expr.relocateAll r args.2)

/-- What all parsing functions do with an amount of fuel. What is taken off it is the number of
calls that a function may make one inside the other before it takes a token. -/
structure Sound (m : Passage) (fuel : Nat) : Prop where
  block : Twin m (fuel - 8) Any [] (block fuel) (block fuel) (ReadBlock m)
  statements : Carries m (fuel - 7) Any (Stmt.relocateAll m.r) (statements fuel) fun ss =>
    Read m.lawful (.stmts ss)
  statement : Carries m (fuel - 6) Any (Stmt.relocate m.r) (statement fuel) (ReadInner m)
  localStatement : Carries m (fuel - 1) (·.kind = .keyword .local) (Stmt.relocate m.r)
    (localStatement fuel)
    (ReadInner m)
  ifStatement : Carries m (fuel - 1) (·.kind = .keyword .if) (Stmt.relocate m.r) (ifStatement fuel)
    (ReadInner m)
  elseIfs : Twin m (fuel - 1) Any [] (elseIfs fuel) (elseIfs fuel) (ReadArms m)
  forStatement : Carries m (fuel - 1) (·.kind = .keyword .for) (Stmt.relocate m.r)
    (forStatement fuel) (ReadInner m)
  returnStatement : Carries m (fuel - 1) (·.kind = .keyword .return) (Stmt.relocate m.r)
    (returnStatement fuel) fun st => Read m.lawful (.stmt st)
  exprStatement : Carries m (fuel - 5) Any (Stmt.relocate m.r) (exprStatement fuel) (ReadInner m)
  moreTargets : Carries m (fuel - 1) Any (Expr.relocateAll m.r) (moreTargets fuel) (ReadTargets m)
  funcBody : Carries m (fuel - 1) Any (FuncBody.relocate m.r) (funcBody fuel) fun b =>
    Read m.lawful (.body b)
  exprList : Carries m (fuel - 8) Any (Expr.relocateAll m.r) (exprList fuel) fun es ts =>
    es ≠ [] ∧ Read m.lawful (.exprs es) ts
  expr : Carries m (fuel - 7) Any (Expr.relocate m.r) (expr fuel) fun e => Read m.lawful (.expr e)
  subExpr (limit : Nat) : Twin m (fuel - 6) Any [] (subExpr fuel limit) (subExpr fuel limit)
    (ReadWithin m limit)
  binaryTail (limit : Nat) {left : Expr} {us : List Token} : Read m.lawful (.expr left) us →
    left.Exceeds limit →
    Twin m (fuel + 16 * us.length - 1)
      (fun t => ∀ op, BinaryOp.ofToken? t.kind = some op → op.AllowsLeft left) us
      (binaryTail fuel limit left) (binaryTail fuel limit (left.relocate m.r)) (ReadWithin m limit)
  simpleExpr : Carries m (fuel - 5) Any (Expr.relocate m.r) (simpleExpr fuel)
    (ReadAs m Expr.IsSimple)
  primaryExpr : Carries m (fuel - 1) Any (Expr.relocate m.r) (primaryExpr fuel)
    (ReadAs m Expr.IsCallable)
  suffixedExpr : Carries m (fuel - 4) Any (Expr.relocate m.r) (suffixedExpr fuel)
    (ReadAs m Expr.IsCallable)
  suffixes (left : Expr) {us : List Token} : ReadAs m Expr.IsCallable left us →
    Twin m (fuel + 16 * us.length - 3) Any us (suffixes fuel left)
      (suffixes fuel (left.relocate m.r)) (ReadSuffixed m)
  callArgs : Carries m (fuel - 2) Any (relocateArgs m.r) (callArgs fuel) fun c =>
    Read m.lawful (.args c.1 c.2)
  table : Carries m (fuel - 1) Any (Expr.relocate m.r) (table fuel) (ReadAs m Expr.IsBareArgument)
  tableFields : Carries m (fuel - 9) Any (TableField.relocateAll m.r) (tableFields fuel) fun fs =>
    Read m.lawful (.fields fs)
  tableField : Carries m (fuel - 8) Any (TableField.relocate m.r) (tableField fuel) fun f =>
    Read m.lawful (.field f)

/-! ## Names and literals -/

theorem stringLiteral_carries (hk : kind = .string ∨ kind = .longString) :
    Carries m budget (·.kind = kind) (Expr.relocate m.r) stringLiteral
      (ReadAs m Expr.IsBareArgument) := by
  unfold stringLiteral
  refine .takeOf (by rcases hk with rfl | rfl <;> simp) fun t t' ht hlawful hfollows => ?_
  have hname : t.kind ≠ .name := by rcases hk with rfl | rfl <;> simp [ht]
  have hread : ∀ value, t.Denotes value →
      Read m.lawful (.expr (.string t.pos t.text value)) ([] ++ [t]) := fun value hv =>
    ⟨.string hv, .string (hlawful.string value hv)⟩
  simp only [hfollows.kind, hfollows.pos, hfollows.text hname, ht]
  rcases hk with rfl | rfl
  · cases hv : Literal.unquote t.text with
    | error cause => exact .failAt (by grind)
    | ok value => exact .pure ⟨⟨hread _ (.quoted ht hv), trivial⟩, rfl⟩
  · exact .pure ⟨⟨hread _ (.bracketed ht), trivial⟩, rfl⟩

theorem moreIdents_carries (sep : TokenKind) [Fact sep.IsFixed] (fuel : Nat) :
    Carries m (fuel - 1) Any (List.map (Ident.relocate m.r)) (moreIdents sep fuel) fun is ts =>
      ReadsNames sep is ts ∧ ∀ i ∈ is, m.lawful (.name i.name) := by
  induction fuel with
  | zero => exact .failAt (by grind)
  | succ fuel ih =>
    simp only [moreIdents]
    refine .accept (fun c hc => ?_) (.pure ⟨⟨.nil, by simp⟩, rfl⟩)
    refine .ident fun t ht hl => ih.next (by grind) fun is ts ⟨hr, hw⟩ => ?_
    exact .pure ⟨⟨.cons hc ht hr, forall_mem_cons.mpr ⟨hl, hw⟩⟩, rfl⟩

/-- The words of a declared name belong to the vocabulary. -/
def LocalLawful (lawful : Word → Prop) (n : LocalName) : Prop :=
  lawful (.name n.ident.name) ∧ ∀ a ∈ n.attrib, lawful (.name a.name)

theorem localName_carries : Carries m budget Any (LocalName.relocate m.r) localName fun n ts =>
      ReadsLocal n ts ∧ LocalLawful m.lawful n := by
  unfold localName
  refine .ident fun t ht hl => ?_
  refine .accept (fun less hless => ?_) (.pure ⟨⟨.plain ht, hl, by simp⟩, rfl⟩)
  refine .ident fun w hw hwl => .expect fun g g' hg hfollows => ?_
  refine .pure ⟨⟨.attributed ht hless hw hg, hl, ?_⟩, ?_⟩
  · rintro a ⟨⟩
    exact hwl
  · have hstop := hfollows.stop (by simp [hg.1])
    simp only [LocalName.relocate, Option.map_some, hstop]

theorem localNames_carries (fuel : Nat) :
    Carries m (fuel - 1) Any (List.map (LocalName.relocate m.r)) (localNames fuel) fun ns ts =>
      ReadsLocals ns ts ∧ ns ≠ [] ∧ ∀ n ∈ ns, LocalLawful m.lawful n := by
  induction fuel with
  | zero => exact .failAt (by grind)
  | succ fuel ih =>
    simp only [localNames]
    refine localName_carries.next (Nat.le_add_right ..) fun n ts ⟨hr, hl⟩ => ?_
    refine .accept (fun c hc => ?_) (.pure ⟨⟨.last hr, by simp, by simpa using hl⟩, rfl⟩)
    refine ih.next (by grind) fun ns us ⟨hr', _, hl'⟩ => ?_
    exact .pure ⟨⟨.cons hr hc hr', by simp, forall_mem_cons.mpr ⟨hl, hl'⟩⟩, rfl⟩

theorem params_carries (fuel : Nat) : Carries m (fuel - 1) Any (relocateParams m.r) (params fuel)
    fun ps ts =>
      ReadsParams ps.1 ps.2 ts ∧ ∀ i ∈ ps.1, m.lawful (.name i.name) := by
  induction fuel with
  | zero => exact .failAt (by grind)
  | succ fuel ih =>
    simp only [params]
    refine .peekKind fun kind => ?_
    split
    · refine .take fun t t' ht hfollows => .pure ⟨⟨.vararg ht, by simp⟩, ?_⟩
      simp [relocateParams, hfollows.pos]
    · refine .ident fun t ht hl => ?_
      refine .accept (fun c hc => ?_) (.pure ⟨⟨.last ht, by simpa using hl⟩, rfl⟩)
      refine ih.next (by grind) fun ⟨others, last⟩ us ⟨hr, hl'⟩ => ?_
      exact .pure ⟨⟨.cons ht hc hr, forall_mem_cons.mpr ⟨hl, hl'⟩⟩, rfl⟩

theorem funcName_carries (fuel : Nat) :
    Carries m (fuel - 1) Any (FuncName.relocate m.r) (funcName fuel) fun n ts =>
      ReadsFuncName n ts ∧ ∀ i ∈ n.names ++ n.method.toList, m.lawful (.name i.name) := by
  unfold funcName
  refine .ident fun t ht hl =>
    (moreIdents_carries (.sign .dot) fuel).next (by grind) fun is ts ⟨hr, hls⟩ => ?_
  have hnames : ∀ i ∈ t.ident :: is, m.lawful (.name i.name) := forall_mem_cons.mpr ⟨hl, hls⟩
  refine .accept (fun c hc => .ident fun i hi hlm => ?_) (.pure ⟨⟨.plain ht hr, ?_⟩, rfl⟩)
  · refine .pure ⟨⟨.method ht hr hc hi, ?_⟩, rfl⟩
    exact forall_mem_append.mpr ⟨hnames, forall_mem_singleton.mpr hlm⟩
  · simpa [FuncName.names] using hnames

theorem assignable_runs {e : Expr} {k : Expr → Parser γ} {l : Expr → Parser δ}
    (h : e.IsTarget → Twin m budget Any acc (k e) (l (e.relocate m.r)) Q) :
    Twin m budget first acc (assignable e >>= k) (assignable (e.relocate m.r) >>= l) Q := by
  cases e with
  | name | field | element => exact (h trivial).any
  | _ => exact fun _ _ _ _ _ => .error (by simp)

/-! ## Expressions -/

section Expressions

variable (ih : Sound m fuel)
include ih

theorem exprList_step : Carries m (fuel + 1 - 8) Any (Expr.relocateAll m.r) (exprList (fuel + 1))
    fun es ts =>
      es ≠ [] ∧ Read m.lawful (.exprs es) ts := by
  simp only [exprList]
  refine ih.expr.next (by grind) fun e ts hr => .accept (fun c hc => ?_) (.pure ?_)
  · refine ih.exprList.next (by grind) fun es us ⟨hne, hr'⟩ => .pure ⟨⟨by simp, ?_, ?_⟩, rfl⟩
    · obtain ⟨e', es, rfl⟩ := exists_cons_of_ne_nil hne
      exact .consExpr hr.reads hc hr'.reads
    · exact .consExpr hr.wellFormed hr'.wellFormed
  · exact ⟨⟨by simp, .oneExpr hr.reads, .consExpr hr.wellFormed .noExprs⟩, rfl⟩

theorem expr_step :
    Carries m (fuel + 1 - 7) Any (Expr.relocate m.r) (expr (fuel + 1)) fun e =>
      Read m.lawful (.expr e) := by
  simp only [expr]
  exact (ih.subExpr 0).imp (by grind) fun ⟨⟨hr, _⟩, he⟩ => ⟨hr, he⟩

theorem subExpr_step (limit : Nat) :
    Twin m (fuel + 1 - 6) Any [] (subExpr (fuel + 1) limit) (subExpr (fuel + 1) limit)
      (ReadWithin m limit) := by
  simp only [subExpr]
  refine .peekKind fun kind => ?_
  split
  · rename_i op hop
    obtain rfl := UnaryOp.token_of_ofToken? hop
    refine .take fun t t' ht hfollows => (ih.subExpr _).bind (by grind) ?_
    rintro operand _ ts next ⟨⟨hr, hexc, hwithin⟩, rfl⟩
    have hunary : Read m.lawful (.expr (.unary op t.pos operand)) ([] ++ [t] ++ ts) :=
      ⟨.unary ht hr.reads, .unary hr.wellFormed ((Expr.unaryAllows_iff_exceeds _).mpr hexc)⟩
    rw [hfollows.pos]
    -- An operator after the operand does not bind more tightly than the unary one.
    refine ((ih.binaryTail limit hunary trivial).afford (by grind)).mono ?_
    rintro _ rfl op' hop'
    exact (allowsLeft_unary_iff ..).mpr (hwithin op' hop')
  · refine ih.simpleExpr.next (by grind) fun e ts ⟨hr, hsimple⟩ => ?_
    exact ((ih.binaryTail limit hr (hsimple.exceeds limit)).afford (by grind)).mono fun _ _ op _ =>
      hsimple.allowsLeft op

theorem binaryTail_step (limit : Nat) {left : Expr} {us : List Token}
    (hleft : Read m.lawful (.expr left) us) (hexc : left.Exceeds limit) :
    Twin m (fuel + 1 + 16 * us.length - 1)
      (fun t => ∀ op, ofToken? t.kind = some op → op.AllowsLeft left) us
      (binaryTail (fuel + 1) limit left) (binaryTail (fuel + 1) limit (left.relocate m.r))
      (ReadWithin m limit) := by
  -- The loop ends before an operator that does not bind tightly enough.
  have hstop : ∀ {budget} {t : Token}, Within limit t → Twin m budget
      (·.kind = t.kind) us (pure left)
      (pure (left.relocate m.r)) (ReadWithin m limit) := fun hwithin =>
    .stop fun _ hk => ⟨⟨hleft, hexc, fun op hop => hwithin op (hk ▸ hop)⟩, rfl⟩
  simp only [binaryTail]
  refine .peek fun next hnext => ?_
  split
  · rename_i hop
    exact hstop fun op hop' => by cases hop.symm.trans hop'
  · rename_i op hop
    split
    · rename_i hle
      exact hstop fun op' hop' => by cases hop.symm.trans hop'; exact hle
    · rename_i hlt
      have hallows := hnext op hop
      rw [token_of_ofToken? hop]
      refine .take fun t t' ht hfollows => (ih.subExpr _).bind (by grind) ?_
      rintro right _ ts next ⟨⟨hr, hrexc, hwithin⟩, rfl⟩
      have hbin : Read m.lawful (.expr (.binary op t.pos left right)) (us ++ [t] ++ ts) :=
        ⟨.binary hleft.reads ht hr.reads, .binary hleft.wellFormed hallows hr.wellFormed
          ((Expr.allowsRight_iff_exceeds op right).mpr hrexc)⟩
      rw [hfollows.pos]
      -- The right operand ended before an operator that binds less tightly.
      refine ((ih.binaryTail limit hbin (Nat.lt_of_not_le hlt)).afford (by grind)).mono ?_
      rintro _ rfl op' hop'
      exact (allowsLeft_iff ..).mpr (hwithin op' hop')

theorem simpleExpr_step :
    Carries m (fuel + 1 - 5) Any (Expr.relocate m.r) (simpleExpr (fuel + 1))
      (ReadAs m Expr.IsSimple) := by
  simp only [simpleExpr]
  refine .peekKind fun kind => ?_
  split
  case h_1 =>
    refine .takeOf (by simp) fun t t' ht hlawful hfollows => .pure ⟨⟨⟨.number ht, ?_⟩, trivial⟩, ?_⟩
    · exact .number (hlawful.number ht)
    · simp only [Expr.relocate, hfollows.pos, hfollows.text (by simp [ht])]
  case h_2 =>
    exact (stringLiteral_carries (.inl rfl)).imp (Nat.le_add_right ..) fun ⟨⟨hr, hb⟩, he⟩ =>
      ⟨⟨hr, hb.isSimple⟩, he⟩
  case h_3 =>
    exact (stringLiteral_carries (.inr rfl)).imp (Nat.le_add_right ..) fun ⟨⟨hr, hb⟩, he⟩ =>
      ⟨⟨hr, hb.isSimple⟩, he⟩
  case h_4 =>
    exact .take fun t _ ht hfollows => .pure ⟨⟨⟨.nil ht, .nil⟩, trivial⟩, hfollows.pos ▸ rfl⟩
  case h_5 =>
    exact .take fun t _ ht hfollows => .pure ⟨⟨⟨.true ht, .bool⟩, trivial⟩, hfollows.pos ▸ rfl⟩
  case h_6 =>
    exact .take fun t _ ht hfollows => .pure ⟨⟨⟨.false ht, .bool⟩, trivial⟩, hfollows.pos ▸ rfl⟩
  case h_7 =>
    exact .take fun t _ ht hfollows => .pure ⟨⟨⟨.vararg ht, .vararg⟩, trivial⟩, hfollows.pos ▸ rfl⟩
  case h_8 => exact ih.table.any.imp (by grind) fun ⟨⟨hr, hb⟩, he⟩ => ⟨⟨hr, hb.isSimple⟩, he⟩
  case h_9 =>
    refine .take fun t _ ht hfollows => ih.funcBody.next (by grind) fun b ts hr =>
      .pure ⟨⟨?_, trivial⟩, ?_⟩
    · exact ⟨.functionExpr ht hr.reads, .functionExpr hr.wellFormed⟩
    · exact hfollows.pos ▸ rfl
  case h_10 => exact ih.suffixedExpr.any.imp (by grind) fun ⟨⟨hr, hc⟩, he⟩ =>
    ⟨⟨hr, hc.isSimple⟩, he⟩

theorem primaryExpr_step :
    Carries m (fuel + 1 - 1) Any (Expr.relocate m.r) (primaryExpr (fuel + 1))
      (ReadAs m Expr.IsCallable) := by
  simp only [primaryExpr]
  refine .peekKind fun kind => ?_
  split
  · exact .ident fun t ht hl => .pure ⟨⟨⟨.name ht, .name hl⟩, trivial⟩, rfl⟩
  · refine .take fun t t' ht hfollows => ih.expr.next (by grind) fun inner ts hr =>
      .close fun r _ hr' => ?_
    exact .pure ⟨⟨⟨.paren ht hr.reads hr', .paren hr.wellFormed⟩, trivial⟩, hfollows.pos ▸ rfl⟩
  · exact .unexpected _

theorem suffixedExpr_step :
    Carries m (fuel + 1 - 4) Any (Expr.relocate m.r) (suffixedExpr (fuel + 1))
      (ReadAs m Expr.IsCallable) := by
  simp only [suffixedExpr]
  exact ih.primaryExpr.next (by grind) fun e ts hr => (ih.suffixes e hr).afford (by grind)

theorem suffixes_step (left : Expr) {us : List Token} (hleft : ReadAs m Expr.IsCallable left us) :
    Twin m (fuel + 1 + 16 * us.length - 3) Any us (suffixes (fuel + 1) left)
      (suffixes (fuel + 1) (left.relocate m.r)) (ReadSuffixed m) := by
  obtain ⟨hleft, hcall⟩ := hleft
  -- Every suffix takes a token, which pays for the rest of them.
  have hrest : ∀ e {ts}, us.length < ts.length → ReadAs m Expr.IsCallable e ts →
      Twin m (fuel + 1 + 16 * us.length - 3) Any ts (suffixes fuel e)
        (suffixes fuel (e.relocate m.r)) (ReadSuffixed m) := fun e ts hlt hread =>
    (ih.suffixes e hread).afford (by omega)
  have hargs : Twin m (fuel + 1 + 16 * us.length - 3) Any us
      (callArgs fuel >>= fun c => suffixes fuel (.call left none c.1 c.2))
      (callArgs fuel >>= fun c => suffixes fuel (.call (left.relocate m.r) none c.1 c.2))
      (ReadSuffixed m) := by
    refine ih.callArgs.next (by grind) fun c ts hr =>
      hrest (.call left none c.1 c.2) ?_ ⟨⟨?_, ?_⟩, trivial⟩
    · simpa using hr.reads.length_pos id
    · exact .call hleft.reads hr.reads
    · exact .call hleft.wellFormed hcall (by simp) hr.wellFormed
  simp only [suffixes]
  refine .peekKind fun kind => ?_
  split
  · refine .take fun d _ hd _ => .ident fun t ht hl => ?_
    exact hrest (.field left t.ident) (by grind)
      ⟨⟨.fieldAccess hleft.reads hd ht, .fieldAccess hleft.wellFormed hcall hl⟩, trivial⟩
  · refine .take fun l l' hl hfollows => ih.expr.next (by grind) fun key ts hr =>
      .close fun r _ hr' => ?_
    rw [hfollows.pos]
    exact hrest (.element left l.pos key r.pos) (by grind)
      ⟨⟨.element hleft.reads hl hr.reads hr', .element hleft.wellFormed hcall hr.wellFormed⟩,
        trivial⟩
  · refine .take fun c _ hc _ => .ident fun t ht hl =>
      ih.callArgs.next (by grind) fun args ts hr => ?_
    exact hrest (.call left (some t.ident) args.1 args.2) (by grind)
      ⟨⟨.methodCall hleft.reads hc ht hr.reads,
        .call hleft.wellFormed hcall (by simpa using hl) hr.wellFormed⟩, trivial⟩
  -- The four ways in which arguments may begin.
  · exact hargs.any
  · exact hargs.any
  · exact hargs.any
  · exact hargs.any
  · exact .pure ⟨⟨hleft, hcall⟩, rfl⟩

theorem callArgs_step : Carries m (fuel + 1 - 2) Any (relocateArgs m.r)
    (callArgs (fuel + 1)) fun c =>
      Read m.lawful (.args c.1 c.2) := by
  -- A single literal may stand without parentheses.
  have hbare : ∀ {first} {p : Parser Expr},
      Carries m (fuel - 1) first (Expr.relocate m.r) p (ReadAs m Expr.IsBareArgument) →
      Carries m (fuel + 1 - 2) first (relocateArgs m.r)
        (p >>= fun e => pure (CallForm.literal, [e])) fun c =>
        Read m.lawful (.args c.1 c.2) := by
    refine fun h => h.bind (by grind) ?_
    rintro e _ ts _ ⟨⟨hr, hb⟩, rfl⟩
    exact .pure ⟨⟨.bareArg hr.reads hb, .bareArg hr.wellFormed hb⟩, rfl⟩
  simp only [callArgs]
  refine .peekKind fun kind => ?_
  split
  · exact hbare (stringLiteral_carries (.inl rfl))
  · exact hbare (stringLiteral_carries (.inr rfl))
  · exact hbare ih.table.any
  · refine .take fun l l' hl hfollows => ?_
    have hclose : ∀ args ts, Read m.lawful (.exprs args) ts → Twin m (fuel + 1 - 2) Any
        ([] ++ [l] ++ ts)
        (do return (CallForm.parens l.pos (← expectClose (.sign .rightParen) "(" l.pos), args))
        (do return (CallForm.parens l'.pos (← expectClose (.sign .rightParen) "(" l'.pos),
          Expr.relocateAll m.r args))
        fun c c' us _ => Read m.lawful (.args c.1 c.2) us ∧ c' = relocateArgs m.r c := by
      refine fun args ts hr => .close fun r _ hr' => .pure ⟨⟨.argList hl hr.reads hr', ?_⟩, ?_⟩
      · exact .argList hr.wellFormed
      · simp only [relocateArgs, CallForm.relocate, hfollows.pos]
    refine .peekKind fun kind => ?_
    split
    · exact (hclose [] [] ⟨.noExprs, .noExprs⟩).any
    · exact ih.exprList.next (by grind) fun args ts hr => hclose args ts hr.2
  · exact .unexpected _

theorem table_step :
    Carries m (fuel + 1 - 1) Any (Expr.relocate m.r) (table (fuel + 1))
      (ReadAs m Expr.IsBareArgument) := by
  simp only [table]
  refine .expect fun l l' hl hfollows => ih.tableFields.next (by grind) fun fs ts hr =>
    .close fun r _ hr' => ?_
  exact .pure ⟨⟨⟨.table hl hr.reads hr', .table hr.wellFormed⟩, trivial⟩, hfollows.pos ▸ rfl⟩

theorem tableFields_step : Carries m (fuel + 1 - 9) Any (TableField.relocateAll m.r)
    (tableFields (fuel + 1))
      fun fs => Read m.lawful (.fields fs) := by
  simp only [tableFields]
  refine .peekKind fun kind => ?_
  split
  · exact .pure ⟨⟨.noFields, .noFields⟩, rfl⟩
  refine ih.tableField.next (by grind) fun f ts hr => .peekKind fun sep => ?_
  split
  -- Behind a separator there may be another field, or the end.
  · rename_i hsep
    have hrest : ∀ c : Token, c.Is (.sign .comma) ∨ c.Is (.sign .semicolon) →
        Twin m (fuel + 1 - 9) Any ([] ++ ts ++ [c]) (do return f :: (← tableFields fuel))
          (do return f.relocate m.r :: (← tableFields fuel)) fun fs fs' us _ =>
            Read m.lawful (.fields fs) us ∧ fs' = TableField.relocateAll m.r fs := by
      refine fun c hc => ih.tableFields.next (by grind) fun fs us hr' => .pure ⟨⟨?_, ?_⟩, rfl⟩
      · exact .consField hr.reads hc hr'.reads
      · exact .consField hr.wellFormed hr'.wellFormed
    have hsep : sep = .sign .comma ∨ sep = .sign .semicolon := by simpa using hsep
    rcases hsep with rfl | rfl
    · exact .take fun c _ hc _ => hrest c (.inl hc)
    · exact .take fun c _ hc _ => hrest c (.inr hc)
  · exact .pure ⟨⟨.oneField hr.reads, .consField hr.wellFormed .noFields⟩, rfl⟩

theorem tableField_step : Carries m (fuel + 1 - 8) Any (TableField.relocate m.r)
    (tableField (fuel + 1)) fun f =>
      Read m.lawful (.field f) := by
  simp only [tableField]
  refine .peekKind fun kind => ?_
  split
  · refine .take fun l l' hl hfollows => ih.expr.next (by grind) fun key ts hr =>
      .close fun r _ hr' => ?_
    refine .expect fun a _ ha _ => ih.expr.next (by grind) fun e us hr'' =>
      .pure ⟨⟨?_, ?_⟩, hfollows.pos ▸ rfl⟩
    · exact .keyed hl hr.reads hr' ha hr''.reads
    · exact .keyed hr.wellFormed hr''.wellFormed
  · refine ih.expr.next (by grind) fun e ts hr => ?_
    have hpositional : Read m.lawful (.field (.positional e)) ([] ++ ts) :=
      ⟨.positional hr.reads, .positional hr.wellFormed⟩
    cases e with
    | name i =>
      refine .accept (fun a ha => ih.expr.next (by grind) fun e us hr' => ?_)
        (.pure ⟨hpositional, rfl⟩)
      -- An expression that is a name alone is a single token.
      obtain ⟨hreads, hwf⟩ := hr
      cases hwf with
      | name hl =>
        cases hreads with
        | name ht => exact .pure ⟨⟨.named ht ha hr'.reads, .named hl hr'.wellFormed⟩, rfl⟩
    | _ => exact .pure ⟨hpositional, rfl⟩

end Expressions

/-! ## Statements -/

section Statements

theorem firstPos_of_head? {ts : List Token} {t : Token} (h : ts.head? = some t) :
    firstPos ts = t.pos := by
  cases ts with
  | nil => cases h
  | cons => cases h; rfl

/-- The first token of a sequence depends on what follows only through its first token. -/
theorem firstPos_append {ts us vs : List Token} {t next : Token}
    (hvs : (vs ++ [next]).head? = some t) (hus : us.head? = some next) :
    firstPos (ts ++ [t]) = firstPos (ts ++ (vs ++ us)) := by
  cases ts with
  | cons => rfl
  | nil =>
    cases vs with
    | nil =>
      cases hvs
      exact (firstPos_of_head? hus).symm
    | cons v vs => cases hvs; rfl

variable (ih : Sound m fuel)
include ih

theorem block_step :
    Twin m (fuel + 1 - 8) Any [] (block (fuel + 1)) (block (fuel + 1)) (ReadBlock m) := by
  simp only [block]
  refine .peekPos fun t =>
    .restart (ih.statements.next (by grind) fun ss ts hr => .pure fun hhead => ?_)
  exact ⟨⟨ss, congrArg (Block.mk · ss) (firstPos_of_head? hhead).symm, hr⟩, rfl⟩

/-- A block and the token that closes it. -/
theorem Sound.closed [Fact kind.IsFixed] {opener : String} {opened opened' : Nat}
    {k : Block → Nat → Parser γ} {l : Block → Nat → Parser δ}
    (hle : budget ≤ fuel - 8 + 16 * acc.length)
    (h : ∀ ss ts e, Read m.lawful (.stmts ss) ts → e.Is kind →
      Twin m budget Any (acc ++ ts ++ [e]) (k (.mk (firstPos (ts ++ [e])) ss) e.pos)
        (l (Block.relocate m.r (.mk (firstPos (ts ++ [e])) ss)) (m.offset e.pos)) Q) :
    Twin m budget first acc (Parser.block fuel >>= fun b => expectClose kind opener opened >>= k b)
      (Parser.block fuel >>= fun b => expectClose kind opener opened' >>= l b) Q := by
  refine ih.block.any.bind (by grind) ?_
  rintro _ _ ts next ⟨⟨ss, rfl, hr⟩, rfl⟩
  refine .close ?_
  rintro _ rfl he
  exact h ss ts _ hr he

/-- The block of a conditional arm and the arms after it. The block ends where the branches after it
begin, so its position is known once they are. -/
theorem Sound.arms {k : Block → List ElseIf → Parser γ} {l : Block → List ElseIf → Parser δ}
    (hle : budget ≤ fuel - 8 + 16 * acc.length)
    (h : ∀ pos ss ts arms vs next, Read m.lawful (.stmts ss) ts →
      (∀ otherwise endPos us, us.head? = some next →
        Read m.lawful (.branches [] otherwise endPos) us →
        pos = firstPos (ts ++ (vs ++ us)) ∧
          Read m.lawful (.branches arms otherwise endPos) (vs ++ us)) →
      Twin m budget (· = next) (acc ++ ts ++ vs) (k (.mk pos ss) arms)
        (l (Block.relocate m.r (.mk pos ss)) (ElseIf.relocateAll m.r arms)) Q) :
    Twin m budget first acc (Parser.block fuel >>= fun b => Parser.elseIfs fuel >>= k b)
      (Parser.block fuel >>= fun b => Parser.elseIfs fuel >>= l b) Q := by
  refine ih.block.any.bind (by grind) ?_
  rintro _ _ ts start ⟨⟨ss, rfl, hr⟩, rfl⟩
  refine ih.elseIfs.headed.bind (by grind) ?_
  rintro arms _ vs next ⟨⟨harms, rfl⟩, hhead⟩
  refine h _ ss ts arms vs next hr fun otherwise endPos us hus hrest => ⟨?_, ?_⟩
  · exact firstPos_append hhead hus
  · exact harms otherwise endPos us hus hrest

theorem statements_step : Carries m (fuel + 1 - 7) Any (Stmt.relocateAll m.r)
    (statements (fuel + 1)) fun ss =>
      Read m.lawful (.stmts ss) := by
  simp only [statements]
  refine .peekKind fun kind => ?_
  split
  · refine .take fun t _ ht _ => ih.statements.imp (by grind) fun ⟨hr, hss⟩ =>
      ⟨⟨?_, hr.wellFormed⟩, hss⟩
    exact .semicolon ht hr.reads
  -- A return statement is the last one, with a semicolon behind it or without.
  · refine ih.returnStatement.bind (by grind) ?_
    rintro st _ ts _ ⟨hr, rfl⟩
    have hwf : WellFormed m.lawful (.stmts [st]) := .consStmt hr.wellFormed (fun _ => rfl) .noStmts
    refine .accept (fun t ht => .pure ⟨⟨.consStmt hr.reads ?_, hwf⟩, rfl⟩) (.pure ⟨⟨?_, hwf⟩, rfl⟩)
    · simpa using semicolon ht .noStmts
    · simpa using consStmt hr.reads .noStmts
  · split
    · exact .pure ⟨⟨.noStmts, .noStmts⟩, rfl⟩
    · refine ih.statement.next (by grind) fun st ts ⟨hr, hret⟩ => ?_
      have hpos := hr.reads.length_pos id
      refine ih.statements.next (by grind) fun ss us hr' => ?_
      refine .pure ⟨⟨.consStmt hr.reads hr'.reads, .consStmt hr.wellFormed ?_ hr'.wellFormed⟩, rfl⟩
      exact fun hr => absurd hr hret

theorem returnStatement_step : Carries m (fuel + 1 - 1) (·.kind = .keyword .return)
    (Stmt.relocate m.r)
      (returnStatement (fuel + 1)) fun st => Read m.lawful (.stmt st) := by
  simp only [returnStatement]
  refine .take fun t t' ht hfollows => .peekKind fun kind => ?_
  split
  · exact .pure ⟨⟨by simpa using ret ht .noExprs, .ret .noExprs⟩, hfollows.pos ▸ rfl⟩
  · refine ih.exprList.next (by grind) fun es ts ⟨_, hr⟩ => ?_
    exact .pure ⟨⟨.ret ht hr.reads, .ret hr.wellFormed⟩, hfollows.pos ▸ rfl⟩

theorem localStatement_step : Carries m (fuel + 1 - 1) (·.kind = .keyword .local)
    (Stmt.relocate m.r)
      (localStatement (fuel + 1)) (ReadInner m) := by
  simp only [localStatement]
  refine .take fun t t' ht hfollows => ?_
  rw [hfollows.pos]
  refine .accept
    (fun f hf => .ident fun i hi hl => ih.funcBody.next (by grind) fun b ts hr => ?_) ?_
  · exact .pure ⟨⟨⟨.localFunction ht hf hi hr.reads, .localFunction hl hr.wellFormed⟩, id⟩, rfl⟩
  refine (localNames_carries fuel).next (by grind) fun names ns ⟨hr, hne, hl⟩ => ?_
  refine .accept (fun a ha => ih.exprList.next (by grind) fun es ts ⟨hne', hr'⟩ => ?_) (.pure ?_)
  · refine .pure ⟨⟨⟨.localAssign ht hr ha hne' hr'.reads, ?_⟩, id⟩, rfl⟩
    exact .localAssign hne hl hr'.wellFormed
  · exact ⟨⟨⟨.localNames ht hr, .localAssign hne hl .noExprs⟩, id⟩, rfl⟩

theorem statement_step :
    Carries m (fuel + 1 - 6) Any (Stmt.relocate m.r) (statement (fuel + 1)) (ReadInner m) := by
  simp only [statement]
  refine .peekKind fun kind => ?_
  split
  case h_1 => exact ih.localStatement.afford (by grind)
  case h_2 =>
    refine .take fun t _ ht hfollows => (funcName_carries fuel).next (by grind) fun n ns hname => ?_
    refine ih.funcBody.next (by grind) fun b ts hr => .pure ⟨⟨⟨?_, ?_⟩, id⟩, hfollows.pos ▸ rfl⟩
    · exact .functionStmt ht hname.1 hr.reads
    · exact .functionStmt hname.2 hr.wellFormed
  case h_3 => exact ih.ifStatement.afford (by grind)
  case h_4 =>
    refine .take fun t _ ht hfollows => ih.expr.next (by grind) fun cond cs hr =>
      .expect fun d _ hd _ => ?_
    refine ih.closed (by grind) fun ss ts e hr' he => .pure ⟨⟨⟨?_, ?_⟩, id⟩, hfollows.pos ▸ rfl⟩
    · exact .whileLoop ht hr.reads hd hr'.reads he
    · exact .whileLoop hr.wellFormed hr'.wellFormed
  case h_5 =>
    refine .take fun t _ ht hfollows => ih.closed (by grind) fun ss ts e hr he => ?_
    exact .pure ⟨⟨⟨.doBlock ht hr.reads he, .doBlock hr.wellFormed⟩, id⟩, hfollows.pos ▸ rfl⟩
  case h_6 => exact ih.forStatement.afford (by grind)
  case h_7 =>
    refine .take fun t _ ht hfollows => ih.closed (by grind) fun ss ts u hr hu => ?_
    refine ih.expr.next (by grind) fun cond cs hr' => ?_
    refine .pure ⟨⟨⟨?_, .repeatLoop hr.wellFormed hr'.wellFormed⟩, id⟩, hfollows.pos ▸ rfl⟩
    exact .repeatLoop ht hr.reads hu hr'.reads
  case h_8 => exact .take fun t _ ht hfollows => .pure ⟨⟨⟨.brk ht, .brk⟩, id⟩, hfollows.pos ▸ rfl⟩
  case h_9 =>
    refine .take fun t _ ht hfollows => .ident fun i hi hl => ?_
    exact .pure ⟨⟨⟨.goto ht hi, .goto hl⟩, id⟩, hfollows.pos ▸ rfl⟩
  case h_10 =>
    refine .take fun t t' ht hfollows => .ident fun i hi hl => .expect fun c c' hc hfollows' => ?_
    refine .pure ⟨⟨⟨.label ht hi hc, .label hl⟩, id⟩, ?_⟩
    simp only [Stmt.relocate, hfollows.pos, hfollows'.stop (by simp [hc.1])]
  case h_11 => exact ih.exprStatement.any.afford (by grind)

theorem elseIfs_step :
    Twin m (fuel + 1 - 1) Any [] (elseIfs (fuel + 1)) (elseIfs (fuel + 1)) (ReadArms m) := by
  simp only [elseIfs]
  refine .peekKind fun kind => ?_
  split
  · refine .take fun t t' ht hfollows => ih.expr.next (by grind) fun cond cs hr => ?_
    refine .expect fun d d' hd hfollows' =>
      ih.arms (by grind) fun pos ss ts arms vs next hr' harms => ?_
    refine .stop fun _ hnext => ⟨fun otherwise endPos us hhead hrest => ?_, ?_⟩
    · obtain ⟨rfl, hread⟩ := harms otherwise endPos us (hnext ▸ hhead) hrest
      refine ⟨?_, .elseIfBranch hr.wellFormed hr'.wellFormed hread.wellFormed⟩
      simpa only [append_assoc, nil_append] using
        elseIfBranch ht hr.reads hd hr'.reads hread.reads
    · simp only [ElseIf.relocateAll, ElseIf.relocate, hfollows.pos, hfollows'.pos]
  · exact .pure ⟨fun _ _ _ _ hrest => hrest, rfl⟩

theorem ifStatement_step : Carries m (fuel + 1 - 1) (·.kind = .keyword .if) (Stmt.relocate m.r)
      (ifStatement (fuel + 1)) (ReadInner m) := by
  simp only [ifStatement]
  refine .take fun t t' ht hfollows => ih.expr.next (by grind) fun cond cs hr => ?_
  refine .expect fun d d' hd hfollows' =>
    ih.arms (by grind) fun pos ss ts arms vs next hr' harms => ?_
  rw [hfollows.pos, hfollows'.pos]
  -- What remains is the `else` arm, if there is one, and the closing `end`.
  have hfinish : ∀ otherwise endPos us, us.head? = some next →
      Read m.lawful (.branches [] otherwise endPos) us →
      ReadInner m (.ifThen t.pos cond d.pos (.mk pos ss) arms otherwise endPos)
        ([] ++ [t] ++ cs ++ [d] ++ ts ++ vs ++ us) := by
    intro otherwise endPos us hhead hrest
    obtain ⟨rfl, hread⟩ := harms otherwise endPos us hhead hrest
    refine ⟨⟨?_, .ifThen hr.wellFormed hr'.wellFormed hread.wellFormed⟩, id⟩
    simpa only [append_assoc, nil_append] using ifThen ht hr.reads hd hr'.reads hread.reads
  refine .restart (.peekKind fun kind => ?_)
  split
  · refine .take fun e _ he hfollows => ih.closed (by grind) fun ss' us f hr'' hf =>
      .pure fun hhead => ?_
    refine ⟨hfinish _ _ _ hhead ⟨.elseBranch he hr''.reads hf, .elseBranch hr''.wellFormed⟩, ?_⟩
    exact hfollows.pos ▸ rfl
  · refine .close fun e _ he => .pure fun hhead => ?_
    exact ⟨hfinish .absent _ _ hhead ⟨.noBranch he, .noBranch⟩, rfl⟩

theorem funcBody_step : Carries m (fuel + 1 - 1) Any (FuncBody.relocate m.r)
    (funcBody (fuel + 1)) fun b =>
      Read m.lawful (.body b) := by
  simp only [funcBody]
  refine .expect fun l l' hl hfollows => ?_
  rw [hfollows.pos]
  -- With or without parameters, the closing parenthesis and the block come next.
  have hclose : ∀ (ps : List Ident × Option Nat) us,
      (ReadsParams ps.1 ps.2 us ∨ ps.1 = [] ∧ ps.2 = none ∧ us = []) →
      (∀ i ∈ ps.1, m.lawful (.name i.name)) → Twin m (fuel + 1 - 1) Any ([] ++ [l] ++ us)
        (do let rparen ← expect (.sign .rightParen)
            let body ← block fuel
            return .mk l.pos ps.1 ps.2 rparen.pos body
              (← expectClose (.keyword .end) "function" l.pos))
        (do let rparen ← expect (.sign .rightParen)
            let body ← block fuel
            return .mk (m.offset l.pos) (relocateParams m.r ps).1 (relocateParams m.r ps).2
              rparen.pos body (← expectClose (.keyword .end) "function" (m.offset l.pos)))
        fun b b' ts _ => Read m.lawful (.body b) ts ∧ b' = b.relocate m.r := by
    intro ps us hps hnames
    refine .expect fun r r' hr hfollows => ih.closed (by grind) fun ss ts e hread he =>
      .pure ⟨⟨?_, ?_⟩, ?_⟩
    · exact .body hl hps hr hread.reads he
    · exact .body hnames hread.wellFormed
    · exact hfollows.pos ▸ rfl
  refine .peekKind fun kind => ?_
  split
  · exact (hclose ([], none) [] (.inr ⟨rfl, rfl, rfl⟩) (by simp)).any
  · exact (params_carries fuel).next (by grind) fun ps us ⟨hread, hnames⟩ =>
      hclose ps us (.inl hread) hnames

theorem moreTargets_step : Carries m (fuel + 1 - 1) Any (Expr.relocateAll m.r)
      (moreTargets (fuel + 1)) (ReadTargets m) := by
  simp only [moreTargets]
  refine .accept (fun c hc => ?_) (.pure ⟨⟨by simp, fun e us hread => ?_⟩, rfl⟩)
  · refine ih.suffixedExpr.next (by grind) fun e ts ⟨hr, _⟩ => assignable_runs fun htarget => ?_
    refine ih.moreTargets.next (by grind) fun es vs ⟨htargets, hrest⟩ =>
      .pure ⟨⟨?_, fun e us hread => ?_⟩, rfl⟩
    · exact forall_mem_cons.mpr ⟨htarget, htargets⟩
    · have htail := hrest _ _ hr
      refine ⟨?_, .consExpr hread.wellFormed htail.wellFormed⟩
      simpa only [append_assoc, nil_append] using consExpr hread.reads hc htail.reads
  · rw [append_nil]
    exact ⟨.oneExpr hread.reads, .consExpr hread.wellFormed .noExprs⟩

theorem exprStatement_step :
    Carries m (fuel + 1 - 5) Any (Stmt.relocate m.r) (exprStatement (fuel + 1)) (ReadInner m) := by
  simp only [exprStatement]
  refine ih.suffixedExpr.next (by grind) fun e ts ⟨hr, _⟩ => .peekKind fun kind => ?_
  split
  · refine assignable_runs fun htarget =>
      ih.moreTargets.next (by grind) fun es us ⟨htargets, hrest⟩ => ?_
    refine .expect fun a _ ha hfollows => ih.exprList.next (by grind) fun vs xs ⟨hne, hr'⟩ => ?_
    have hall := hrest _ _ hr
    refine .pure ⟨⟨⟨.assign (by simp) hall.reads ha hne hr'.reads, ?_⟩, id⟩, hfollows.pos ▸ rfl⟩
    exact .assign (by simp) (forall_mem_cons.mpr ⟨htarget, htargets⟩) hall.wellFormed hne
      hr'.wellFormed
  · cases e with
    | call => exact .pure ⟨⟨⟨.callStmt hr.reads, .callStmt hr.wellFormed⟩, id⟩, rfl⟩
    | _ => exact .failAt (by grind)

theorem forStatement_step : Carries m (fuel + 1 - 1) (·.kind = .keyword .for) (Stmt.relocate m.r)
      (forStatement (fuel + 1)) (ReadInner m) := by
  simp only [forStatement, bind_map_left, pure_bind]
  refine .take fun t t' ht hfollows => .ident fun v hv hl => ?_
  rw [hfollows.pos]
  refine .accept
    (fun a ha => ih.expr.next (by grind) fun start fs hr => .expect fun c _ hc _ => ?_) ?_
  -- A loop over numbers, with a step or without one, or else a loop over the values of an iterator.
  · refine ih.expr.next (by grind) fun limit ls hr' => .accept (fun c' hc' => ?_) ?_
    · refine ih.expr.next (by grind) fun step ps hr'' => .expect fun d _ hd _ => ?_
      refine ih.closed (by grind) fun ss ts e hread he => .pure ⟨⟨⟨?_, ?_⟩, id⟩, rfl⟩
      · exact .steppingFor ht hv ha hr.reads hc hr'.reads hc' hr''.reads hd hread.reads he
      · exact .numericFor hl hr.wellFormed hr'.wellFormed (.consExpr hr''.wellFormed .noExprs)
          hread.wellFormed
    · refine .expect fun d _ hd _ => ih.closed (by grind) fun ss ts e hread he => ?_
      refine .pure ⟨⟨⟨.countingFor ht hv ha hr.reads hc hr'.reads hd hread.reads he, ?_⟩, id⟩, rfl⟩
      exact .numericFor hl hr.wellFormed hr'.wellFormed .noExprs hread.wellFormed
  · refine (moreIdents_carries (.sign .comma) fuel).next (by grind) fun is ns ⟨hnames, hls⟩ => ?_
    refine .expect fun i _ hin _ => ih.exprList.next (by grind) fun es xs ⟨hne, hr⟩ =>
      .expect fun d _ hd _ => ?_
    refine ih.closed (by grind) fun ss ts e hread he => .pure ⟨⟨⟨?_, ?_⟩, id⟩, rfl⟩
    · exact .genericFor ht hv hnames hin hr.reads hd hread.reads he
    · exact .genericFor (by simp) (forall_mem_cons.mpr ⟨hl, hls⟩) hne hr.wellFormed hread.wellFormed

end Statements

/-! ## All runs -/

/-- All parsing functions are sound with any fuel: without fuel none of them succeeds, and with one
more unit each of them is made of functions that are sound. -/
theorem sound (m : Passage) (fuel : Nat) : Sound m fuel := by
  induction fuel with
  | zero => constructor <;> intros <;> exact .failAt (by grind)
  | succ fuel ih =>
    exact {
      block := block_step ih
      statements := statements_step ih
      statement := statement_step ih
      localStatement := localStatement_step ih
      ifStatement := ifStatement_step ih
      elseIfs := elseIfs_step ih
      forStatement := forStatement_step ih
      returnStatement := returnStatement_step ih
      exprStatement := exprStatement_step ih
      moreTargets := moreTargets_step ih
      funcBody := funcBody_step ih
      exprList := exprList_step ih
      expr := expr_step ih
      subExpr := subExpr_step ih
      binaryTail := binaryTail_step ih
      simpleExpr := simpleExpr_step ih
      primaryExpr := primaryExpr_step ih
      suffixedExpr := suffixedExpr_step ih
      suffixes := suffixes_step ih
      callArgs := callArgs_step ih
      table := table_step ih
      tableFields := tableFields_step ih
      tableField := tableField_step ih }

end Parser

end LuaLint
