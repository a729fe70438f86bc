import LuaLint.Lint.EmptyIf
import LuaLint.Lint.TableClone
import LuaLint.Proofs.Lint.NameUses
import LuaLint.Proofs.Parsing.Comments
import LuaLint.Proofs.Scope.Precedence

/-!
# The places that checks look at

What a check points at is made of the tokens of the source: expressions and statements, the path of
a call, an arm of a conditional up to the next one, a loop together with the definition above it, or
a comment. All of these ranges lie in the source and none is empty.

Main statements: `Reads.sited_nameUses`, `Parser.inside_emptyArm`, `Parser.inside_comment`.
-/

namespace LuaLint

open List Ordered Lexer

variable {s : Stmt} {ts us : List Token} {c : Comment} {loop : CopyLoop}

/-! ## Ranges in a source -/

def Span.Inside (source : Bytes) (s : Span) : Prop := s.start < s.stop ∧ s.stop ≤ source.length

namespace Parser

variable {source : Bytes} {chunk : Chunk}

variable (h : parse source = .ok chunk)
include h

theorem inside_of_le {s : Span} (hlt : s.start < s.stop) {t : Token}
    (ht : t ∈ codeTokens source) (hle : s.stop ≤ t.stop) : s.Inside source :=
  ⟨hlt, Nat.le_trans hle (stop_le_length h ht)⟩

theorem inside_of_runs {s : Span} (hs : Runs (codeTokens source) s) : s.Inside source := by
  obtain ⟨-, t, ht, hstop⟩ := hs.ends
  exact inside_of_le h (hs.lt (nested_of_parse h).ordered) ht (Nat.le_of_eq hstop.symm)

theorem inside_of_over {s : Span} {run : List Token} (hs : s.Over run)
    (hrun : run <:+: codeTokens source) : s.Inside source :=
  inside_of_runs h (hs.runs.widen hrun)

end Parser

/-! ## Uses of names -/

def NameUse.expr : NameUse → Expr
  | .value e => e
  | .target e => e
  | .call c => c.expr

/-- The uses are made by expressions on runs of some tokens. -/
abbrev UsesOn (us : List NameUse) (ts : List Token) : Prop :=
  Sited (fun u run => Reads (.expr u.expr) run) us ts

theorem Expr.nameUses_subset (e : Expr) : e.nameUses true ⊆ e.nameUses false := by
  cases e with
  | name i => simp [nameUses]
  | field object n => simp [nameUses]
  | element object lbrack key rbrack => simp [nameUses]
  | _ => exact List.Subset.refl _

theorem UsesOn.inner {e : Expr} (h : UsesOn (e.nameUses false) ts) :
    UsesOn (e.nameUses true) ts := h.subset e.nameUses_subset

theorem Expr.targetNameUses_subset (es : List Expr) : targetNameUses es ⊆ allNameUses es := by
  induction es with
  | nil => exact List.Subset.refl _
  | cons e es ih =>
    exact append_subset.mpr ⟨subset_append_of_subset_left _ e.nameUses_subset,
      subset_append_of_subset_right _ ih⟩

theorem UsesOn.whole {u : NameUse} (h : Reads (.expr u.expr) ts) (p : Bool) :
    UsesOn (if p then [] else [u]) ts := by
  split
  · exact .nil
  · exact .single h

theorem Reads.usesOn_call {c : Call} (h : Reads (.expr c.expr) (ts ++ us))
    (hcallee : UsesOn (c.callee.nameUses Bool.false) ts)
    (hargs : UsesOn (Expr.allNameUses c.args) us) :
    UsesOn (c.expr.nameUses Bool.false) (ts ++ us) := by
  have hown : UsesOn (if c.isFirst then [.call c] else []) (ts ++ us) := by
    split
    · exact .single h
    · exact .nil
  exact (hown.both ((UsesOn.inner hcallee).right us)).both (hargs.left ts)

theorem Reads.usesOn_targets {es : List Expr} (h : Reads (.exprs es) ts)
    (hes : UsesOn (Expr.allNameUses es) ts) :
    UsesOn (es.map .target ++ Expr.targetNameUses es) ts := by
  refine Sited.both (fun u hu => ?_) (hes.subset (Expr.targetNameUses_subset es))
  obtain ⟨e, he, rfl⟩ := mem_map.mp hu
  exact h.fits.1.grounded.sited_exprs e he

/-- The uses of names in a phrase stand at its tokens. -/
theorem Reads.sited_nameUses {p : Phrase} (h : Reads p ts) : UsesOn p.nameUses ts := by
  induction h with
  | nil _ => exact .nil
  | true _ => exact .nil
  | false _ => exact .nil
  | number _ => exact .nil
  | string _ => exact .nil
  | vararg _ => exact .nil
  | name ht => exact .single (.name ht)
  | functionExpr _ _ ih => exact ih.left _
  | table _ _ _ ih => exact (ih.left _).right _
  | binary _ _ _ ihl ihr => exact (ihl.right _).append ihr
  | unary _ _ ih => exact ih.left _
  | paren _ _ _ ih => exact (ih.left _).right _
  -- The chain as a whole is a use, and so may be a call inside of it.
  | fieldAccess he hd ht ih =>
    refine (UsesOn.whole (u := .value _) (.fieldAccess he hd ht) _).both ?_
    exact ((UsesOn.inner ih).right _).right _
  | element he hl hkey hr ih ihkey =>
    have hown := UsesOn.whole (u := .value _) (.element he hl hkey hr)
    exact ((hown _).both ((((UsesOn.inner ih).right _).right _).right _)).both
      ((ihkey.left _).right _)
  | call hcallee hargs ih ihargs =>
    exact Reads.usesOn_call (c := ⟨_, _, _, _⟩) (.call hcallee hargs) ih ihargs
  | methodCall hcallee hc hm hargs ih ihargs =>
    exact Reads.usesOn_call (c := ⟨_, _, _, _⟩) (.methodCall hcallee hc hm hargs)
      ((ih.right _).right _) ihargs
  | noExprs => exact .nil
  | oneExpr _ ih => exact ih.both .nil
  | consExpr _ _ _ ih ihrest => exact (ih.right _).append ihrest
  | argList _ _ _ ih => exact (ih.left _).right _
  | bareArg _ _ ih => exact ih.both .nil
  | positional _ ih => exact ih.both .nil
  | named _ _ _ ih => exact (ih.left _).both .nil
  | keyed _ _ _ _ _ ihkey ih =>
    exact ((((ihkey.left _).right _).right _).append ih).both .nil
  | noFields => exact .nil
  | oneField _ ih => exact ih
  | consField _ _ _ ih ihrest =>
    rw [Phrase.nameUses, TableField.nameUses_cons]
    exact (ih.right _).append ihrest
  | body _ _ _ _ _ ih => exact (ih.left _).right _
  | localNames _ _ => exact .nil
  | localAssign _ _ _ _ _ ih => exact ih.left _
  | assign _ htargets _ _ _ ihtargets ihvalues =>
    exact ((htargets.usesOn_targets ihtargets).right _).append ihvalues
  | callStmt _ ih => exact ih
  | doBlock _ _ _ ih => exact (ih.left _).right _
  | whileLoop _ _ _ _ _ ihcond ih => exact (((ihcond.left _).right _).append ih).right _
  | repeatLoop _ _ _ _ ih ihcond => exact ((ih.left _).right _).append ihcond
  | ifThen _ _ _ _ _ ihcond ih iharms =>
    rw [Phrase.nameUses, Stmt.nameUses, append_assoc]
    exact (((ihcond.left _).right _).append ih).append iharms
  | countingFor _ _ _ _ _ _ _ _ _ ihfirst ihlimit ih =>
    exact ((((((ihfirst.left _).right _).append ihlimit).both .nil).right _).append ih).right _
  | steppingFor _ _ _ _ _ _ _ _ _ _ _ ihfirst ihlimit ihstep ih =>
    exact (((((((ihfirst.left _).right _).append ihlimit).right _).append ihstep).right _).append
      ih).right _
  | genericFor _ _ _ _ _ _ _ _ ihes ih => exact (((ihes.left _).right _).append ih).right _
  | functionStmt _ _ _ ih => exact ih.left _
  | localFunction _ _ _ _ ih => exact ih.left _
  | ret _ _ ih => exact ih.left _
  | brk _ => exact .nil
  | goto _ _ => exact .nil
  | label _ _ _ => exact .nil
  | noStmts => exact .nil
  | semicolon _ _ ih => exact ih.left _
  | consStmt _ _ ih ihrest => exact ih.append ihrest
  | noBranch _ => exact .nil
  | elseBranch _ _ _ ih => exact (ih.left _).right _
  | elseIfBranch _ _ _ _ _ ihcond ih iharms =>
    rw [Phrase.nameUses, ElseIf.nameUses, append_assoc]
    exact (((ihcond.left _).right _).append ih).append iharms

/-! ## Arms of conditionals -/

/-- An arm of a conditional, and what is said of it when it is empty. -/
structure Arm where
  /-- The word that begins the arm. -/
  keyword : Span
  /-- The word that opens the block: a `then`, or the `else` that begins the arm. -/
  opening : Span
  stmts : List Stmt
  /-- Where the word that ends the block begins. -/
  closing : Nat
  stop : Nat
  message : Bytes

namespace Arm

def span (a : Arm) : Span := ⟨a.keyword.start, a.stop⟩

/-- The words of the arm are among some tokens, in order. Its range ends where its block does or
with a token behind. -/
structure Written (a : Arm) (ts : List Token) : Prop where
  keyword : ∃ t ∈ ts, a.keyword = ⟨t.pos, t.stop⟩
  opening : ∃ t ∈ ts, t.kind ∈ [.keyword .then, .keyword .else] ∧ a.opening = ⟨t.pos, t.stop⟩
  closing : ∃ t ∈ ts, t.kind ∈ [.keyword .elseif, .keyword .else, .keyword .end] ∧ a.closing = t.pos
  ends : a.stop = a.closing ∨ ∃ t ∈ ts, a.closing ≤ t.pos ∧ a.stop = t.stop
  opens : a.keyword = a.opening ∨ a.keyword.stop ≤ a.opening.start
  closes : a.opening.stop ≤ a.closing

theorem Written.mono {a : Arm} (h : a.Written ts) (hsub : ts ⊆ us) : a.Written us where
  keyword := h.keyword.imp fun _ => .imp_left (@hsub _)
  opening := h.opening.imp fun _ => .imp_left (@hsub _)
  closing := h.closing.imp fun _ => .imp_left (@hsub _)
  ends := h.ends.imp_right (.imp fun _ => .imp_left (@hsub _))
  opens := h.opens
  closes := h.closes

theorem Written.bounds {a : Arm} (h : a.Written ts) (hts : Ordered ts) :
    a.keyword.start < a.keyword.stop ∧ a.opening.start < a.opening.stop ∧
      a.keyword.stop ≤ a.opening.stop ∧ a.opening.stop ≤ a.closing ∧ a.closing ≤ a.stop := by
  obtain ⟨t, ht, hkeyword⟩ := h.keyword
  obtain ⟨u, hu, -, hopening⟩ := h.opening
  have hlt : a.keyword.start < a.keyword.stop := hkeyword ▸ hts.nonempty t ht
  have hopen : a.opening.start < a.opening.stop := hopening ▸ hts.nonempty u hu
  refine ⟨hlt, hopen, ?_, h.closes, ?_⟩
  · rcases h.opens with heq | hle
    · exact Nat.le_of_eq (congrArg Span.stop heq)
    · omega
  · rcases h.ends with heq | ⟨e, he, hle, heq⟩
    · exact Nat.le_of_eq heq.symm
    · have hend := hts.nonempty e he
      omega

end Arm

/-- The arm behind `else`, in a conditional that ends with an `end` at a place. -/
def ElsePart.arms (endPos : Nat) : ElsePart → List Arm
  | .present pos b =>
    [⟨⟨pos, pos + 4⟩, ⟨pos, pos + 4⟩, b.stmts, endPos, endPos + 3, "empty else block"⟩]
  | .absent => []

def ElseIf.arms (otherwise : ElsePart) (endPos : Nat) : List ElseIf → List Arm
  | [] => []
  | .mk pos _ thenPos b :: rest =>
    let next := nextArm rest otherwise endPos
    ⟨⟨pos, pos + 6⟩, ⟨thenPos, thenPos + 4⟩, b.stmts, next, next, "empty elseif block"⟩ ::
      ElseIf.arms otherwise endPos rest

def Stmt.arms : Stmt → List Arm
  | .ifThen pos _ thenPos b arms otherwise endPos =>
    ⟨⟨pos, pos + 2⟩, ⟨thenPos, thenPos + 4⟩, b.stmts, nextArm arms otherwise endPos, endPos + 3,
      "empty if block"⟩ :: (ElseIf.arms otherwise endPos arms ++ otherwise.arms endPos)
  | _ => []

/-- What is said of the arms without statements. -/
def Arm.said (as : List Arm) : List (Span × Bytes) :=
  (as.filter fun a => a.stmts.isEmpty).map fun a => (a.span, a.message)

theorem Arm.said_cons (a : Arm) (as : List Arm) :
    said (a :: as) = (if a.stmts.isEmpty then [(a.span, a.message)] else []) ++ said as := by
  cases ha : a.stmts.isEmpty <;> simp [said, ha]

theorem Arm.said_append (as bs : List Arm) : said (as ++ bs) = said as ++ said bs := by simp [said]

theorem Stmt.emptyArms_eq (s : Stmt) : s.emptyArms = Arm.said s.arms := by
  cases s with
  | ifThen pos cond thenPos b arms otherwise endPos =>
    have harms : emptyElseIfs otherwise endPos arms =
        Arm.said (ElseIf.arms otherwise endPos arms) := by
      induction arms with
      | nil => rfl
      | cons arm arms ih =>
        cases arm
        rw [emptyElseIfs, ElseIf.arms, Arm.said_cons, ih]
        split <;> rfl
    simp only [emptyArms, Stmt.arms, Arm.said_cons, Arm.said_append, harms, append_assoc]
    cases otherwise with
    | absent => rfl
    | present pos b =>
      have hnil : Arm.said [] = [] := rfl
      rw [ElsePart.arms, Arm.said_cons, hnil, append_nil]
      rfl
  | _ => rfl

section Arms

variable {arms : List ElseIf} {otherwise : ElsePart} {endPos : Nat} {ts : List Token}

theorem Reads.nextArm_word (h : Reads (.branches arms otherwise endPos) ts) :
    ∃ t us, ts = t :: us ∧ t.kind ∈ [.keyword .elseif, .keyword .else, .keyword .end] ∧
      nextArm arms otherwise endPos = t.pos := by
  cases h with
  | noBranch ht => exact ⟨_, _, rfl, by simp [ht.1], rfl⟩
  | elseBranch ht _ _ => exact ⟨_, _, rfl, by simp [ht.1], rfl⟩
  | elseIfBranch ht _ _ _ _ => exact ⟨_, _, rfl, by simp [ht.1], rfl⟩

theorem Reads.nextArm_le (h : Reads (.branches arms otherwise endPos) ts) (hts : Ordered ts) :
    ∃ e ∈ ts, nextArm arms otherwise endPos ≤ e.pos ∧ endPos + 3 = e.stop := by
  obtain ⟨t, us, rfl, -, hpos⟩ := h.nextArm_word
  obtain ⟨init, e, heq, hstop⟩ := h.fits.2
  exact ⟨e, by simp [heq], hts.le_pos (hpos ▸ .cons) e (by simp [heq]), hstop.symm⟩

/-- An arm whose block stands behind a `then` and is ended by later arms. -/
theorem Reads.written_then {t h : Token} {cs bs us : List Token} {a : Arm}
    (hrest : Reads (.branches arms otherwise endPos) us)
    (hts : Ordered ([t] ++ cs ++ [h] ++ bs ++ us))
    (hh : h.Is (.keyword .then)) (hkeyword : a.keyword = ⟨t.pos, t.stop⟩)
    (hopening : a.opening = ⟨h.pos, h.stop⟩)
    (hclosing : a.closing = nextArm arms otherwise endPos)
    (hstop : a.stop = a.closing ∨ a.stop = endPos + 3) :
    a.Written ([t] ++ cs ++ [h] ++ bs ++ us) := by
  obtain ⟨hinit, hus, hle⟩ := append_iff.mp hts
  obtain ⟨u, rest, rfl, hkind, hpos⟩ := hrest.nextArm_word
  obtain ⟨e, he, hnext, hend⟩ := hrest.nextArm_le hus
  have hthen := (append_iff.mp (append_iff.mp hinit).1).2.2 t (by simp) h (by simp)
  exact ⟨⟨t, by simp, hkeyword⟩, ⟨h, by simp, by simp [hh.1], hopening⟩,
    ⟨u, by simp, hkind, hclosing.trans hpos⟩,
    hstop.imp_right fun heq => ⟨e, mem_append_right _ he, hclosing ▸ hnext, heq.trans hend⟩,
    .inr (by rw [hkeyword, hopening]; exact hthen),
    by rw [hopening, hclosing, hpos]; exact hle h (by simp) u mem_cons_self⟩

theorem Reads.written_laterArms (h : Reads (.branches arms otherwise endPos) ts)
    (hts : Ordered ts) :
    ∀ a ∈ ElseIf.arms otherwise endPos arms ++ otherwise.arms endPos, a.Written ts := by
  induction arms generalizing ts with
  | nil =>
    cases h with
    | noBranch _ => simp [ElseIf.arms, ElsePart.arms]
    | @elseBranch t e ss bs ht _ he =>
      have hle := (append_iff.mp hts).2.2 t (by simp) e (by simp)
      have hstop : t.stop = t.pos + 4 := ht.stop_eq
      refine forall_mem_singleton.mpr ⟨⟨t, by simp, ?_⟩, ⟨t, by simp, by simp [ht.1], ?_⟩,
        ⟨e, by simp, by simp [he.1], rfl⟩, .inr ⟨e, by simp, Nat.le_refl _, he.stop_eq.symm⟩,
          .inl rfl, hstop ▸ hle⟩
      · rw [hstop]
      · rw [hstop]
  | cons first arms ih =>
    cases h with
    | elseIfBranch ht _ hh _ hrest =>
      have hus := (append_iff.mp hts).2.1
      refine forall_mem_cons.mpr ⟨hrest.written_then hts hh ?_ ?_ rfl (.inl rfl), fun a ha =>
        (ih hrest hus a ha).mono (subset_append_right _ _)⟩
      · exact congrArg _ ht.stop_eq.symm
      · exact congrArg _ hh.stop_eq.symm

theorem Reads.written_arms (h : Reads (.stmt s) ts) (hts : Ordered ts) :
    ∀ a ∈ s.arms, a.Written ts := by
  cases h with
  | ifThen ht _ hh _ hrest =>
    have hus := (append_iff.mp hts).2.1
    refine forall_mem_cons.mpr ⟨hrest.written_then hts hh ?_ ?_ rfl (.inr rfl), fun a ha =>
      (hrest.written_laterArms hus a ha).mono (subset_append_right _ _)⟩
    · exact congrArg _ ht.stop_eq.symm
    · exact congrArg _ hh.stop_eq.symm
  | _ => simp [Stmt.arms]

end Arms

/-! ## Copying loops -/

theorem Stmt.copyLoop?_eq_some (h : s.copyLoop? = some loop) :
    loop.span = s.span ∧ s.outline.Holds (Expr.name loop.into).outline := by
  unfold copyLoop? at h
  split at h
  · rename_i pos key value exprs start object lbrack index rbrack equal e endPos
    split at h
    · rename_i source arrayOnly into hiter hinto
      split at h
      · cases h
        refine ⟨rfl, ?_⟩
        -- The way down to the name leads through the block, the assignment and the element.
        have hname : object.outline.Holds (Expr.name into).outline := hinto ▸ object.holds_strip
        have hfirst : ∀ (o : Outline) (os : List Outline), o ∈ o :: os := fun _ _ =>
          mem_cons_self ..
        exact .child (mem_append_right _ (hfirst _ _))
          (.child (hfirst _ _) (.child (hfirst _ _) (.child (hfirst _ _) hname)))
      · cases h
    · cases h
  · cases h

theorem Reads.copyLoop (h : Reads (.stmt s) ts) (hloop : s.copyLoop? = some loop) :
    loop.span.Over ts ∧ ∃ t ∈ ts, t.pos = loop.into.pos := by
  obtain ⟨hspan, hholds⟩ := Stmt.copyLoop?_eq_some hloop
  have hmem := Outline.mem_nodes_iff.mpr ⟨_, hholds, rfl⟩
  rw [Outline.nodes_eq] at hmem
  obtain ⟨run, hrun, hread⟩ := h.fits.2.2.grounded _ hmem
  obtain ⟨⟨t, ht, hpos⟩, -⟩ := (Reads.over_expr hread).runs.ends
  exact ⟨hspan ▸ h.over_stmt, t, hrun.subset ht, hpos⟩

/-! ## Parsed chunks -/

namespace Parser

variable {source : Bytes} {chunk : Chunk}

theorem sited_nameUses (h : parse source = .ok chunk) :
    UsesOn chunk.nameUses (codeTokens source) := by
  have huses := (chunk_of_parse h).1.reads.sited_nameUses
  rw [Chunk.nameUses]
  cases hblock : chunk.block with
  | mk pos ss =>
    rw [hblock] at huses
    exact huses

variable (h : parse source = .ok chunk)
include h

/-- A comment is in the source. -/
theorem inside_comment (hc : c ∈ chunk.comments) : c.span.Inside source := by
  obtain ⟨t, ht, hkind, hspan, -⟩ := exists_token_of_comment ((chunk_of_parse h).2.2.1 ▸ hc)
  have hstop : t.stop = t.pos + t.lexeme.length := by rw [Token.stop, Token.text, hkind]
  have hbound := ((tiles_tokens source).bounds t ht).2
  rw [Glyph.flatMap_bytes_decode] at hbound
  obtain ⟨init, e, htokens, heof, hinit⟩ := (tiles_tokens source).ends
  rw [htokens, mem_append, mem_singleton] at ht
  -- Only the token at the end of the source is empty, and that is not a comment.
  rcases ht with ht | rfl
  · have hne := length_pos_iff.mpr (hinit t ht).2
    simp only [Mark.first] at hbound
    rw [hspan]
    show t.pos < t.stop ∧ t.stop ≤ source.length
    omega
  · rw [hkind] at heof
    cases heof

theorem inside_stmt (hs : .stmt s ∈ chunk.nodes) : s.span.Inside source := by
  obtain ⟨run, hrun, hread⟩ := sited_nodes h (.stmt s) hs
  exact inside_of_over h (Reads.over_stmt hread) hrun

theorem inside_firstCode {span : Span} (hspan : chunk.firstCode? = some span) :
    span.Inside source := by
  obtain ⟨s, hs, rfl⟩ := Option.map_eq_some_iff.mp hspan
  have hholds : chunk.outline.Holds s.outline := by
    rw [Chunk.outline]
    cases hblock : chunk.block with
    | mk pos ss =>
      rw [hblock] at hs
      obtain ⟨rest, rfl⟩ := head?_eq_some_iff.mp hs
      exact .child (mem_cons_self ..) .self
  have hnode : s.outline.node = .stmt s := by cases s <;> rfl
  exact inside_stmt h (Outline.mem_nodes_iff.mpr ⟨_, hholds, hnode⟩)

theorem written_arms (hs : .stmt s ∈ chunk.nodes) :
    ∀ a ∈ s.arms, a.Written (codeTokens source) := by
  obtain ⟨run, hrun, hread⟩ := sited_nodes h (.stmt s) hs
  intro a ha
  have hordered := (nested_of_parse h).ordered.narrow hrun
  exact (Reads.written_arms hread hordered a ha).mono hrun.subset

/-- An empty arm is in the source. -/
theorem inside_emptyArm (hs : .stmt s ∈ chunk.nodes) :
    ∀ arm ∈ s.emptyArms, arm.1.Inside source := by
  rw [Stmt.emptyArms_eq]
  refine forall_mem_map.mpr fun a ha => ?_
  have hwritten := written_arms h hs a (mem_filter.mp ha).1
  have hordered := (nested_of_parse h).ordered
  obtain ⟨hkeyword, -, hopening, hcloses, hstop⟩ := hwritten.bounds hordered
  obtain ⟨u, hu, -, hclosing⟩ := hwritten.closing
  have hlt := hordered.nonempty u hu
  have hspan : a.keyword.start < a.stop := by omega
  rcases hwritten.ends with hend | ⟨e, he, -, hend⟩
  · exact inside_of_le h hspan hu (by rw [Arm.span, hend, hclosing]; exact Nat.le_of_lt hlt)
  · exact inside_of_le h hspan he (Nat.le_of_eq hend)

/-- A loop that copies a table lies in the source, also together with the definition of the variable
that it copies into. -/
theorem inside_copyLoop (hs : .stmt s ∈ chunk.nodes) (hloop : s.copyLoop? = some loop) :
    loop.span.Inside source ∧
      ∀ pos ≤ loop.into.pos, Span.Inside source ⟨pos, loop.span.stop⟩ := by
  obtain ⟨run, hrun, hread⟩ := sited_nodes h (.stmt s) hs
  have hordered := (nested_of_parse h).ordered.narrow hrun
  obtain ⟨hover, t, ht, hpos⟩ := Reads.copyLoop hread hloop
  have hinside := inside_of_over h hover hrun
  refine ⟨hinside, fun pos hle => ⟨?_, hinside.2⟩⟩
  -- The token of the variable lies between the definition and the end of the loop.
  have hlt := hordered.nonempty t ht
  have hstop := (hordered.bounds hover.1 hover.2 t ht).2
  simp only
  omega

end Parser

end LuaLint
