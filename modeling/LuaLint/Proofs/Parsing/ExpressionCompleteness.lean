import LuaLint.Proofs.Grammar.Precedence
import LuaLint.Proofs.Parsing.Reach

/-!
# Completeness of the grammar of expressions

Every well-formed expression is read back from its printed tokens, up to offsets. There is a lemma
for every form of expression, from its parts to the whole.

Two of the parsing functions work in loops: `suffixes` extends a callable expression and
`binaryTail` the left operand of an operator. An expression that such a loop builds is not read by
one call. What is shown for it instead is that reading it leads to the loop with the expression in
hand.
-/

namespace LuaLint

open List TableField Sign BinaryOp

variable {value : Bytes} {lparen rparen lbrack opPos : Nat} {key : Expr} {fs : List TableField}

variable {op : BinaryOp} {raw : Bytes} {e object : Expr} {i : Ident} {es : List Expr}
variable {rest : List Lexed} {fuel limit pos : Nat} {kind : TokenKind}

namespace Parser

/-! ## First and following tokens -/

def startsSuffix : TokenKind → Bool
  | .sign .dot | .sign .leftBracket | .sign .colon | .sign .leftParen | .sign .leftBrace => true
  | .string | .longString => true
  | _ => false

def startsPrimary : TokenKind → Bool
  | .name | .sign .leftParen => true
  | _ => false

def startsExpr : TokenKind → Bool
  | .name | .number | .string | .longString => true
  | .keyword .nil | .keyword .true | .keyword .false | .keyword .function | .keyword .not => true
  | .sign .ellipsis | .sign .leftBrace | .sign .leftParen => true
  | .sign .minus | .sign .hash | .sign .tilde => true
  | _ => false

/-- A token after which no expression goes on. -/
structure Closes (kind : TokenKind) : Prop where
  suffix : startsSuffix kind = false
  operator : BinaryOp.ofToken? kind = none

theorem starts_of_startsPrimary (h : startsPrimary kind = true) :
    startsExpr kind = true ∧ UnaryOp.ofToken? kind = none := by
  unfold startsPrimary at h
  split at h
  · exact ⟨rfl, rfl⟩
  · exact ⟨rfl, rfl⟩
  · cases h

/-- The chain of suffixes ends where no suffix begins. -/
theorem suffixes_stop (h : startsSuffix (headKind rest) = false) :
    Reaches (suffixes fuel e) rest rest (· = e) := by
  obtain _ | fuel := fuel
  · exact .exhausted
  rw [suffixes]
  refine .peekKind _ rfl ?_
  generalize headKind rest = k at h
  split
  case h_8 => exact .pure rfl
  all_goals cases h

theorem binaryTail_stop (h : ∀ op, ofToken? (headKind rest) = some op → op.leftPower ≤ limit) :
    Reaches (binaryTail fuel limit e) rest rest (· = e) := by
  obtain _ | fuel := fuel
  · exact .exhausted
  rw [binaryTail]
  refine .peekKind _ rfl ?_
  cases hop : ofToken? (headKind rest) with
  | none => exact .pure rfl
  | some op =>
    simp only [if_pos (h op hop)]
    exact .pure rfl

/-! ## Reading expressions back -/

/-- Reading an expression as an operand leads to the loop of operators. -/
def SubComplete (e : Expr) : Prop :=
  ∀ (fuel limit : Nat) (rest out : List Lexed) (R : Expr → Prop),
    e.Exceeds limit → startsSuffix (headKind rest) = false →
    (∀ op, BinaryOp.ofToken? (headKind rest) = some op → op.AllowsLeft e) →
    (∀ fuel' e', e'.erase = e.erase → Reaches (binaryTail fuel' limit e') rest out R) →
    Reaches (subExpr fuel limit) (e.lexemes ++ rest) out R

/-- Reading a callable expression leads to the loop of suffixes. -/
def SuffixedComplete (e : Expr) : Prop :=
  ∀ (fuel : Nat) (rest out : List Lexed) (R : Expr → Prop),
    (∀ fuel' e', e'.erase = e.erase → Reaches (suffixes fuel' e') rest out R) →
    Reaches (suffixedExpr fuel) (e.lexemes ++ rest) out R

/-- How an expression is read back. -/
structure ExprComplete (e : Expr) : Prop where
  first : ∀ rest, startsExpr (headKind (e.lexemes ++ rest)) = true
  sub : SubComplete e
  primary : e.IsCallable → ∀ rest, startsPrimary (headKind (e.lexemes ++ rest)) = true
  suffixed : e.IsCallable → SuffixedComplete e
  bare : e.IsBareArgument → ∀ (fuel : Nat) (rest : List Lexed),
    Reaches (callArgs fuel) (e.lexemes ++ rest) rest fun c =>
      c.1 = .literal ∧ Expr.eraseAll c.2 = [e.erase]

theorem allowsLeft_of_exceeds (he : e.Exceeds limit)
    (hop : op.leftPower ≤ limit) (hlimit : limit ≤ 13) : op.AllowsLeft e := by
  cases e with
  | binary inner pos left right =>
    have hexc : limit < inner.leftPower := he
    have := inner.leftPower_le_rightPower_succ
    exact (op.allowsLeft_iff inner pos left right).mpr (by omega)
  | unary inner pos operand =>
    exact (op.allowsLeft_unary_iff inner pos operand).mpr (op.leftPower_le_unary (by omega))
  | _ => trivial

/-- An operand is read back up to an operator that binds no tighter. -/
theorem ExprComplete.operand (h : ExprComplete e) (hexc : e.Exceeds limit) (hlimit : limit ≤ 13)
    (hrest : startsSuffix (headKind rest) = false)
    (hpower : ∀ op, ofToken? (headKind rest) = some op → op.leftPower ≤ limit) :
    Reaches (subExpr fuel limit) (e.lexemes ++ rest) rest fun e' => e'.erase = e.erase := by
  refine h.sub fuel limit rest rest _ hexc hrest ?_ ?_
  · intro op hop
    exact allowsLeft_of_exceeds hexc (hpower op hop) hlimit
  · intro fuel' e' he
    exact (binaryTail_stop hpower).mono (by rintro _ rfl; exact he)

theorem ExprComplete.expr (h : ExprComplete e) (hrest : Closes (headKind rest)) :
    Reaches (expr fuel) (e.lexemes ++ rest) rest fun e' => e'.erase = e.erase := by
  obtain _ | fuel := fuel
  · exact .exhausted
  have hexc : e.Exceeds 0 := by
    cases e with
    | binary op => exact op.leftPower_pos
    | _ => trivial
  exact h.operand hexc (by omega) hrest.suffix (by simp [hrest.operator])

theorem SuffixedComplete.suffixedExpr (h : SuffixedComplete e)
    (hrest : startsSuffix (headKind rest) = false) :
    Reaches (suffixedExpr fuel) (e.lexemes ++ rest) rest fun e' => e'.erase = e.erase := by
  refine h fuel rest rest _ ?_
  intro fuel' e' he
  exact (suffixes_stop hrest).mono (by rintro _ rfl; exact he)

/-- A simple expression is read back before any operator. -/
theorem subComplete_of_simple
    (hfirst : ∀ rest, UnaryOp.ofToken? (headKind (e.lexemes ++ rest)) = none)
    (hrun : ∀ (fuel : Nat) (rest : List Lexed), startsSuffix (headKind rest) = false →
      Reaches (simpleExpr (fuel + 1)) (e.lexemes ++ rest) rest fun e' => e'.erase = e.erase) :
    SubComplete e := by
  intro fuel limit rest out R _ hrest _ hthen
  obtain _ | fuel := fuel
  · exact .exhausted
  rw [subExpr]
  refine .peekKind _ rfl ?_
  rw [hfirst rest]
  exact .bind (.fueled rfl (fun fuel => hrun fuel rest hrest) fuel) (hthen fuel)

/-! ## Literals -/

theorem ExprComplete.of_simple
    (hfirst : ∀ rest, startsExpr (headKind (e.lexemes ++ rest)) = true ∧
      UnaryOp.ofToken? (headKind (e.lexemes ++ rest)) = none)
    (hrun : ∀ (fuel : Nat) (rest : List Lexed),
      Reaches (simpleExpr (fuel + 1)) (e.lexemes ++ rest) rest fun e' => e'.erase = e.erase)
    (hcall : ¬ e.IsCallable)
    (hbare : e.IsBareArgument → ∀ (fuel : Nat) (rest : List Lexed),
      Reaches (callArgs fuel) (e.lexemes ++ rest) rest fun c =>
        c.1 = .literal ∧ Expr.eraseAll c.2 = [e.erase]) : ExprComplete e where
  first rest := (hfirst rest).1
  sub := subComplete_of_simple (fun rest => (hfirst rest).2) fun fuel rest _ => hrun fuel rest
  primary h := absurd h hcall
  suffixed h := absurd h hcall
  bare := hbare

theorem complete_nil : ExprComplete (.nil pos) := by
  refine .of_simple (fun _ => ⟨rfl, rfl⟩) (fun fuel rest => ?_) id (fun h => h.elim)
  rw [simpleExpr]
  exact .peekKind (.keyword .nil) rfl (.take fun _ _ _ => .pure rfl)

theorem complete_bool {value : Bool} : ExprComplete (.bool pos value) := by
  cases value <;>
  · refine .of_simple (fun _ => ⟨rfl, rfl⟩) (fun fuel rest => ?_) id (fun h => h.elim)
    rw [simpleExpr]
    refine .peekKind _ rfl ?_
    exact .take fun _ _ _ => .pure rfl

theorem complete_number : ExprComplete (.number pos raw) := by
  refine .of_simple (fun _ => ⟨rfl, rfl⟩) (fun fuel rest => ?_) id (fun h => h.elim)
  rw [simpleExpr]
  refine .peekKind .number rfl (.take fun t _ ht => .pure ?_)
  exact congrArg (Expr.number 0) ht

theorem complete_vararg : ExprComplete (.vararg pos) := by
  refine .of_simple (fun _ => ⟨rfl, rfl⟩) (fun fuel rest => ?_) id (fun h => h.elim)
  rw [simpleExpr]
  exact .peekKind (.sign .ellipsis) rfl (.take fun _ _ _ => .pure rfl)

/-- A string literal as the parser takes it. -/
structure StringReads (raw value : Bytes) : Prop where
  bracketed : stringKind raw = .longString → Literal.unbracket raw = value
  quoted : stringKind raw = .string → Literal.unquote raw = .ok value

theorem stringKind_cases (raw : Bytes) :
    stringKind raw = .longString ∨ stringKind raw = .string := by
  unfold stringKind
  split
  · exact .inl rfl
  · exact .inr rfl

theorem stringLiteral_reaches (h : StringReads raw value) (rest : List Lexed) :
    Reaches stringLiteral (⟨stringKind raw, raw⟩ :: rest) rest fun e' =>
      e'.erase = .string 0 raw value := by
  unfold stringLiteral
  refine .take ?_
  rintro t hk ht
  dsimp only at hk ht
  rcases stringKind_cases raw with hkind | hkind
  · rw [hk, hkind, ht, h.bracketed hkind]
    exact .pure rfl
  · rw [hk, hkind, ht, h.quoted hkind]
    exact .pure rfl

theorem complete_string (h : StringReads raw value) : ExprComplete (.string pos raw value) := by
  have hrun := stringLiteral_reaches h
  have hkind := stringKind_cases raw
  refine .of_simple (fun _ => ?_) (fun fuel rest => ?_) id fun _ fuel rest => ?_
  · show startsExpr (stringKind raw) = true ∧ UnaryOp.ofToken? (stringKind raw) = none
    rcases hkind with hkind | hkind <;> rw [hkind] <;> exact ⟨rfl, rfl⟩
  · rw [simpleExpr]
    rcases hkind with hkind | hkind <;> exact .peekKind _ hkind (hrun rest)
  · obtain _ | fuel := fuel
    · exact .exhausted
    rw [callArgs]
    rcases hkind with hkind | hkind <;>
      exact .peekKind _ hkind
        (.bind (hrun rest) fun e' he => .pure ⟨rfl, congrArg (· :: []) he⟩)

/-! ## Callable expressions -/

theorem not_isBareArgument_of_isCallable (h : e.IsCallable) : ¬ e.IsBareArgument := by
  cases e with
  | string | table => exact h.elim
  | _ => exact id

theorem ExprComplete.of_callable (hcall : e.IsCallable)
    (hprimary : ∀ rest, startsPrimary (headKind (e.lexemes ++ rest)) = true)
    (hsuffixed : SuffixedComplete e) : ExprComplete e where
  first rest := (starts_of_startsPrimary (hprimary rest)).1
  sub := by
    refine subComplete_of_simple (fun rest => (starts_of_startsPrimary (hprimary rest)).2) ?_
    intro fuel rest hrest
    rw [simpleExpr]
    refine .peekKind _ rfl ?_
    have hk := hprimary rest
    generalize headKind (e.lexemes ++ rest) = k at hk
    split
    case h_10 => exact hsuffixed.suffixedExpr hrest
    all_goals cases hk
  primary _ := hprimary
  suffixed _ := hsuffixed
  bare h := absurd h (not_isBareArgument_of_isCallable hcall)

theorem suffixedComplete_of_primary (hrun : ∀ (fuel : Nat) (rest : List Lexed),
      Reaches (primaryExpr (fuel + 1)) (e.lexemes ++ rest) rest fun e' => e'.erase = e.erase) :
    SuffixedComplete e := by
  intro fuel rest out R hthen
  obtain _ | fuel := fuel
  · exact .exhausted
  rw [suffixedExpr]
  exact .bind (.fueled rfl (fun fuel => hrun fuel rest) fuel) (hthen fuel)

/-- One round of the loop of suffixes: with `object` in hand it reads `suffix` and goes on with
`e`. -/
def SuffixStep (object e : Expr) (suffix : List Lexed) : Prop :=
  ∀ (fuel : Nat) (object' : Expr) (rest out : List Lexed) (R : Expr → Prop),
    object'.erase = object.erase →
    (∀ fuel' e', e'.erase = e.erase → Reaches (suffixes fuel' e') rest out R) →
    Reaches (suffixes fuel object') (suffix ++ rest) out R

/-- A suffix is read back behind whatever may be called. -/
theorem ExprComplete.of_suffix (suffix : List Lexed) (hobject : ExprComplete object)
    (hcall : object.IsCallable) (hlexemes : e.lexemes = object.lexemes ++ suffix)
    (hstep : SuffixStep object e suffix) (he : e.IsCallable) : ExprComplete e := by
  refine .of_callable he ?_ ?_
  · intro rest
    rw [hlexemes, append_assoc]
    exact hobject.primary hcall _
  · intro fuel rest out R hthen
    rw [hlexemes, append_assoc]
    refine hobject.suffixed hcall fuel (suffix ++ rest) out R ?_
    intro fuel' object' hobject'
    exact hstep fuel' object' rest out R hobject' hthen

theorem complete_name : ExprComplete (.name i) := by
  refine .of_callable trivial (fun _ => rfl) (suffixedComplete_of_primary fun fuel rest => ?_)
  rw [primaryExpr]
  refine .peekKind .name rfl (.ident fun i' hi => .pure ?_)
  exact congrArg Expr.name hi

theorem complete_paren {inner : Expr} (h : ExprComplete inner) :
    ExprComplete (.paren lparen inner rparen) := by
  refine .of_callable trivial (fun _ => rfl) (suffixedComplete_of_primary fun fuel rest => ?_)
  have hls : (Expr.paren lparen inner rparen).lexemes ++ rest =
      leftParen.lexed :: (inner.lexemes ++ rightParen.lexed :: rest) := by
    simp [Expr.lexemes]
  rw [primaryExpr, hls]
  refine .peekKind (.sign .leftParen) rfl (.take fun t _ _ => ?_)
  refine .bind (h.expr ⟨rfl, rfl⟩) fun inner' hinner => ?_
  refine .expectClose rfl fun pos => .pure ?_
  simp [Expr.relocate, hinner]

theorem complete_field (h : ExprComplete object)
    (hcall : object.IsCallable) : ExprComplete (.field object i) := by
  refine .of_suffix [dot.lexed, i.lexed] h hcall (by rw [Expr.lexemes]) ?_ trivial
  intro fuel object' rest out R hobject hthen
  obtain _ | fuel := fuel
  · exact .exhausted
  rw [suffixes]
  refine .peekKind (.sign .dot) rfl (.take fun t _ _ => .ident fun i' hi => hthen fuel _ ?_)
  simp [Expr.relocate, hobject, hi]

theorem complete_element {rbrack : Nat} (h : ExprComplete object) (hcall : object.IsCallable)
    (hkey : ExprComplete key) : ExprComplete (.element object lbrack key rbrack) := by
  refine .of_suffix (leftBracket.lexed :: key.lexemes ++ [rightBracket.lexed]) h hcall
    (by simp [Expr.lexemes]) ?_ trivial
  intro fuel object' rest out R hobject hthen
  obtain _ | fuel := fuel
  · exact .exhausted
  rw [suffixes, cons_append, cons_append, append_assoc]
  refine .peekKind (.sign .leftBracket) rfl (.take fun t _ _ => ?_)
  refine .bind (hkey.expr ⟨rfl, rfl⟩) fun key' hkey' => ?_
  refine .expectClose rfl fun pos => hthen fuel _ ?_
  simp [Expr.relocate, hobject, hkey']

/-! ## Lists of expressions and arguments -/

theorem exprList_reaches (hes : ∀ x ∈ e :: es, ExprComplete x) (kind : TokenKind)
    (hkind : headKind rest = kind) (hclose : Closes kind) (hcomma : kind ≠ .sign .comma) :
    Reaches (exprList fuel) (Expr.lexemesOf (e :: es) ++ rest) rest fun es' =>
      Expr.eraseAll es' = Expr.eraseAll (e :: es) := by
  induction es generalizing e fuel with
  | nil =>
    have he := hes e (mem_cons_self ..)
    simp only [Expr.lexemesOf, Expr.lexemesAfter, append_nil]
    obtain _ | fuel := fuel
    · exact .exhausted
    rw [exprList]
    subst hkind
    refine .bind (he.expr hclose) fun e' he' => .refuse hcomma (.pure ?_)
    simp [Expr.relocateAll, he']
  | cons e₂ es ih =>
    rw [forall_mem_cons] at hes
    have hlexemes : Expr.lexemesOf (e :: e₂ :: es) =
        e.lexemes ++ comma.lexed :: Expr.lexemesOf (e₂ :: es) := by
      simp [Expr.lexemesOf, Expr.lexemesAfter]
    obtain _ | fuel := fuel
    · exact .exhausted
    rw [exprList, hlexemes, append_assoc, cons_append]
    refine .bind (hes.1.expr ⟨rfl, rfl⟩) fun e' he' => .accept rfl ?_
    refine .bind (ih hes.2) fun es' hes' => .pure ?_
    simp [Expr.relocateAll, he', hes']

def startsArgs : TokenKind → Bool
  | .sign .leftParen | .sign .leftBrace | .string | .longString => true
  | _ => false

theorem startsArgs_of_isBareArgument (h : e.IsBareArgument) (rest : List Lexed) :
    startsArgs (headKind (e.lexemes ++ rest)) = true := by
  cases e with
  | string pos raw value =>
    show startsArgs (stringKind raw) = true
    rcases stringKind_cases raw with hkind | hkind <;> rw [hkind] <;> rfl
  | table => rfl
  | _ => exact h.elim

/-- How the arguments of a call are read back. -/
structure ArgsComplete (form : CallForm) (es : List Expr) : Prop where
  first : ∀ rest, startsArgs (headKind (form.enclose (Expr.lexemesOf es) ++ rest)) = true
  run : ∀ (fuel : Nat) (rest : List Lexed),
    Reaches (callArgs fuel) (form.enclose (Expr.lexemesOf es) ++ rest) rest fun c =>
      c.1.erase = form.erase ∧ Expr.eraseAll c.2 = Expr.eraseAll es

theorem complete_argList (h : ∀ e ∈ es, ExprComplete e) :
    ArgsComplete (.parens lparen rparen) es where
  first _ := rfl
  run fuel rest := by
    simp only [CallForm.enclose, cons_append, append_assoc]
    obtain _ | fuel := fuel
    · exact .exhausted
    rw [callArgs]
    refine .peekKind (.sign .leftParen) rfl (.take fun t _ _ => ?_)
    cases es with
    | nil =>
      refine .peekKind (.sign .rightParen) rfl ?_
      simp only [if_true, pure_bind]
      exact .expectClose rfl fun pos => .pure ⟨rfl, rfl⟩
    | cons e es =>
      refine .peekKind _ rfl ?_
      have hfirst := (h e (mem_cons_self ..)).first
        (Expr.lexemesAfter es ++ rightParen.lexed :: rest)
      -- An argument does not begin with the closing parenthesis.
      have hne : headKind (Expr.lexemesOf (e :: es) ++ rightParen.lexed :: rest) ≠
          .sign .rightParen := by
        intro heq
        rw [Expr.lexemesOf, append_assoc] at heq
        rw [heq] at hfirst
        cases hfirst
      simp only [nil_append, if_neg hne]
      refine .bind (exprList_reaches h (.sign .rightParen) rfl ⟨rfl, rfl⟩
        (by decide)) fun es' hes => ?_
      exact .expectClose rfl fun pos => .pure ⟨rfl, hes⟩

theorem complete_bareArg (h : ExprComplete e) (hbare : e.IsBareArgument) :
    ArgsComplete .literal [e] where
  first rest := by
    simpa [CallForm.enclose, Expr.lexemesOf, Expr.lexemesAfter] using
      startsArgs_of_isBareArgument hbare rest
  run fuel rest := by
    simp only [CallForm.enclose, Expr.lexemesOf, Expr.lexemesAfter, append_nil]
    refine (h.bare hbare fuel rest).mono ?_
    rintro ⟨form, es⟩ ⟨rfl, hes⟩
    exact ⟨rfl, by simpa [Expr.relocateAll] using hes⟩

theorem complete_call {callee : Expr} {method : Option Ident} {form : CallForm}
    (h : ExprComplete callee) (hcall : callee.IsCallable) (hargs : ArgsComplete form es) :
    ExprComplete (.call callee method form es) := by
  refine .of_suffix
    (Ident.lexemesAfter .colon method.toList ++ form.enclose (Expr.lexemesOf es)) h hcall
    (by simp [Expr.lexemes]) ?_ trivial
  intro fuel callee' rest out R hcallee hthen
  obtain _ | fuel := fuel
  · exact .exhausted
  have hrun := hargs.run fuel rest
  rw [suffixes, append_assoc]
  cases method with
  | none =>
    refine .peekKind _ rfl ?_
    have hk := hargs.first rest
    simp only [Option.toList, Ident.lexemesAfter, nil_append]
    generalize headKind (form.enclose (Expr.lexemesOf es) ++ rest) = k at hk
    -- What follows the arguments does not depend on how they were written.
    have hgo : ∀ c : CallForm × List Expr, c.1.erase = form.erase ∧
        Expr.eraseAll c.2 = Expr.eraseAll es →
        Reaches (suffixes fuel (.call callee' none c.1 c.2)) rest out R := by
      rintro c ⟨hform, hes⟩
      refine hthen fuel _ ?_
      simp [Expr.relocate, hcallee, hform, hes]
    unfold startsArgs at hk
    split at hk
    case h_5 => cases hk
    all_goals exact .bind hrun hgo
  | some m =>
    refine .peekKind (.sign .colon) rfl (.take fun t _ _ => .ident fun m' hm => ?_)
    refine .bind hrun fun c hc => hthen fuel _ ?_
    simp [Expr.relocate, hcallee, hc.1, hc.2, hm]

/-! ## Operators -/

theorem startsSuffix_token (op : BinaryOp) : startsSuffix op.token = false := by
  cases op <;> rfl

theorem startsExpr_token (op : UnaryOp) : startsExpr op.token = true := by
  cases op <;> rfl

theorem exceeds_of_allowsLeft (he : op.AllowsLeft e)
    (hop : limit < op.leftPower) : e.Exceeds limit := by
  cases e with
  | binary inner pos left right =>
    have hle := (op.allowsLeft_iff inner pos left right).mp he
    have := inner.rightPower_le_leftPower
    show limit < inner.leftPower
    omega
  | _ => trivial

theorem complete_unary {op : UnaryOp} {operand : Expr} (h : ExprComplete operand)
    (hallows : UnaryOp.Allows operand) : ExprComplete (.unary op opPos operand) where
  first _ := startsExpr_token op
  primary hcall := hcall.elim
  suffixed hcall := hcall.elim
  bare hbare := hbare.elim
  sub := by
    intro fuel limit rest out R _ hrest hnext hthen
    have hexc := (Expr.unaryAllows_iff_exceeds operand).mp hallows
    have hpower : ∀ op', ofToken? (headKind rest) = some op' →
        op'.leftPower ≤ UnaryOp.power :=
      fun op' hop' => (allowsLeft_unary_iff ..).mp (hnext op' hop')
    simp only [Expr.lexemes, cons_append]
    obtain _ | fuel := fuel
    · exact .exhausted
    rw [subExpr]
    refine .peekKind op.token rfl ?_
    rw [UnaryOp.ofToken?_token]
    refine .take fun t _ _ => ?_
    refine .bind (h.operand hexc (by decide) hrest hpower) fun operand' hoperand => ?_
    exact hthen fuel _ (by simp [Expr.relocate, hoperand])

/-- The right operand is read up to the power of the operator, and the loop goes on. -/
theorem complete_binary {left right : Expr} (hleft : ExprComplete left)
    (hallowsLeft : op.AllowsLeft left) (hright : ExprComplete right)
    (hallowsRight : op.AllowsRight right) : ExprComplete (.binary op opPos left right) where
  first rest := by
    simp only [Expr.lexemes, append_assoc]
    exact hleft.first _
  primary hcall := hcall.elim
  suffixed hcall := hcall.elim
  bare hbare := hbare.elim
  sub := by
    intro fuel limit rest out R hexc hrest hnext hthen
    have hlimit : limit < op.leftPower := hexc
    have hrexc := (Expr.allowsRight_iff_exceeds op right).mp hallowsRight
    have hpower : ∀ op', ofToken? (headKind rest) = some op' →
        op'.leftPower ≤ op.rightPower :=
      fun op' hop' => (allowsLeft_iff ..).mp (hnext op' hop')
    have hright13 : op.rightPower ≤ 13 := by cases op <;> decide
    simp only [Expr.lexemes, append_assoc, cons_append]
    refine hleft.sub fuel limit (op.token.lexed :: (right.lexemes ++ rest)) out R
      (exceeds_of_allowsLeft hallowsLeft hlimit) (startsSuffix_token op) ?_ ?_
    · intro op' hop'
      rw [headKind, TokenKind.lexed, ofToken?_token] at hop'
      cases hop'
      exact hallowsLeft
    -- The loop takes the operator and its right operand, and goes on with the operation.
    · intro fuel left' hleft'
      obtain _ | fuel := fuel
      · exact .exhausted
      rw [binaryTail]
      refine .peekKind op.token rfl ?_
      rw [ofToken?_token]
      simp only [if_neg (Nat.not_le_of_lt hlimit)]
      refine .take fun t _ _ => ?_
      refine .bind (hright.operand hrexc hright13 hrest hpower) fun right' hright' => ?_
      exact hthen fuel _ (by simp [Expr.relocate, hleft', hright'])

/-! ## Tables -/

/-- How a table entry is read back, before a comma or the closing brace. -/
structure FieldComplete (f : TableField) : Prop where
  first : ∀ rest, headKind (f.lexemes ++ rest) ≠ .sign .rightBrace
  run : ∀ (fuel : Nat) (rest : List Lexed),
    headKind rest = .sign .comma ∨ headKind rest = .sign .rightBrace →
    Reaches (tableField fuel) (f.lexemes ++ rest) rest fun f' => f'.erase = f.erase

theorem closes_of_separator (h : kind = .sign .comma ∨ kind = .sign .rightBrace) : Closes kind := by
  rcases h with rfl | rfl <;> exact ⟨rfl, rfl⟩

theorem erase_eq_name (h : e.erase = .name i) : ∃ i', e = .name i' ∧ i'.erase = i := by
  cases e with
  | name i' =>
    exact ⟨i', rfl, Expr.name.inj h⟩
  | _ => cases h

theorem complete_positional (h : ExprComplete e) : FieldComplete (.positional e) where
  first rest := by
    intro heq
    have := h.first rest
    rw [lexemes] at heq
    rw [heq] at this
    cases this
  run fuel rest hrest := by
    rw [lexemes]
    obtain _ | fuel := fuel
    · exact .exhausted
    rw [tableField]
    refine .peekKind _ rfl ?_
    have hfirst := h.first rest
    have hassign : headKind rest ≠ .sign .assign := by rcases hrest with hk | hk <;> simp [hk]
    have hrun : Reaches (expr fuel) (e.lexemes ++ rest) rest fun e' => e'.erase = e.erase :=
      h.expr (closes_of_separator hrest)
    generalize headKind (e.lexemes ++ rest) = k at hfirst
    split
    · cases hfirst
    · refine .bind hrun fun e' he => ?_
      split
      -- A name alone is a value, since no `=` follows it.
      · refine .refuse hassign (.pure ?_)
        simp [relocate, he]
      · refine .pure ?_
        simp [relocate, he]

theorem complete_named (h : ExprComplete e) : FieldComplete (.named i e) where
  first _ := by rintro ⟨⟩
  run fuel rest hrest := by
    have hls : (named i e).lexemes ++ rest =
        (Expr.name i).lexemes ++ assign.lexed :: (e.lexemes ++ rest) := by
      simp [lexemes, Expr.lexemes]
    obtain _ | fuel := fuel
    · exact .exhausted
    rw [tableField, hls]
    refine .peekKind .name rfl ?_
    refine .bind (complete_name.expr ⟨rfl, rfl⟩) fun e' he => ?_
    obtain ⟨i', rfl, hi⟩ := erase_eq_name he
    refine .accept rfl ?_
    refine .bind (h.expr (closes_of_separator hrest)) fun e' he => .pure ?_
    simp [relocate, hi, he]

theorem complete_keyed (hkey : ExprComplete key) (h : ExprComplete e) :
    FieldComplete (.keyed lbrack key e) where
  first _ := by rintro ⟨⟩
  run fuel rest hrest := by
    simp only [lexemes, cons_append, append_assoc]
    obtain _ | fuel := fuel
    · exact .exhausted
    rw [tableField]
    refine .peekKind (.sign .leftBracket) rfl (.take fun t _ _ => ?_)
    refine .bind (hkey.expr ⟨rfl, rfl⟩) fun key' hkey' => ?_
    refine .expectClose rfl fun pos => .expect rfl fun t => ?_
    refine .bind (h.expr (closes_of_separator hrest)) fun e' he => .pure ?_
    simp [relocate, hkey', he]

theorem tableFields_reaches (hfs : ∀ f ∈ fs, FieldComplete f) :
    Reaches (tableFields fuel) (lexemesOf fs ++ Sign.rightBrace.lexed :: rest)
      (Sign.rightBrace.lexed :: rest) fun fs' =>
        eraseAll fs' = eraseAll fs := by
  induction fs generalizing fuel with
  | nil =>
    obtain _ | fuel := fuel
    · exact .exhausted
    rw [tableFields]
    exact .peekKind (.sign .rightBrace) rfl (.pure rfl)
  | cons f fs ih =>
    rw [forall_mem_cons] at hfs
    obtain _ | fuel := fuel
    · exact .exhausted
    rw [tableFields]
    refine .peekKind _ rfl ?_
    -- No field begins with the brace that ends the list.
    have hne : headKind (lexemesOf (f :: fs) ++ rightBrace.lexed :: rest) ≠
        .sign .rightBrace := by
      rw [lexemesOf, append_assoc]
      exact hfs.1.first _
    simp only [if_neg hne]
    cases fs with
    | nil =>
      simp only [lexemesOf, lexemesAfter, append_nil]
      refine .bind (hfs.1.run fuel _ (.inr rfl)) fun f' hf => ?_
      refine .peekKind (.sign .rightBrace) rfl (.pure ?_)
      simp [relocateAll, hf]
    | cons f₂ fs =>
      have hlexemes : lexemesOf (f :: f₂ :: fs) =
          f.lexemes ++ comma.lexed :: lexemesOf (f₂ :: fs) := by
        simp [lexemesOf, lexemesAfter]
      rw [hlexemes, append_assoc, cons_append]
      refine .bind (hfs.1.run fuel _ (.inl rfl)) fun f' hf => ?_
      refine .peekKind (.sign .comma) rfl (.take fun t _ _ => ?_)
      refine .bind (ih hfs.2) fun fs' hfs' => .pure ?_
      simp [relocateAll, hf, hfs']

theorem complete_table {lbrace rbrace : Nat} (h : ∀ f ∈ fs, FieldComplete f) :
    ExprComplete (.table lbrace fs rbrace) := by
  have hrun : ∀ (fuel : Nat) (rest : List Lexed),
      Reaches (table fuel) ((Expr.table lbrace fs rbrace).lexemes ++ rest) rest fun e' =>
        e'.erase = (Expr.table lbrace fs rbrace).erase := by
    intro fuel rest
    have hls : (Expr.table lbrace fs rbrace).lexemes ++ rest = leftBrace.lexed ::
        (lexemesOf fs ++ rightBrace.lexed :: rest) := by
      simp [Expr.lexemes]
    obtain _ | fuel := fuel
    · exact .exhausted
    rw [table, hls]
    refine .expect rfl fun t => .bind (tableFields_reaches h) fun fs' hfs => ?_
    refine .expectClose rfl fun pos => .pure ?_
    simp [Expr.relocate, hfs]
  refine .of_simple (fun _ => ⟨rfl, rfl⟩) ?_ id ?_
  · intro fuel rest
    rw [simpleExpr]
    exact .peekKind (.sign .leftBrace) rfl (hrun fuel rest)
  · intro _ fuel rest
    obtain _ | fuel := fuel
    · exact .exhausted
    rw [callArgs]
    refine .peekKind (.sign .leftBrace) rfl (.bind (hrun fuel rest) fun e' he => ?_)
    exact .pure ⟨rfl, congrArg (· :: []) he⟩

end Parser

end LuaLint
