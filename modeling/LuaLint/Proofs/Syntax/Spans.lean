import LuaLint.Syntax.Outline
import LuaLint.Proofs.Grammar.Reading

/-!
# The ranges of nodes

Every node of a tree covers a run of the tokens that write the tree. The runs of its children lie
within its own run, one after the other, and every expression and statement is written by its run. A
block without statements covers nothing and stands where its statements would begin.

Main statements: `Reads.fits`.
-/

namespace LuaLint

open List ElseIf Block

variable {kind sep : TokenKind} {is : List Ident} {n : FuncName} {ss : List Stmt}
  {os children : List Outline} {s : Stmt}

/-! ## Runs of tokens -/

def Starts (pos : Nat) (ts : List Token) : Prop := ∃ t us, ts = t :: us ∧ t.pos = pos

def Stops (stop : Nat) (ts : List Token) : Prop := ∃ us t, ts = us ++ [t] ∧ t.stop = stop

variable {pos stop : Nat} {t : Token} {ts us : List Token}

theorem Starts.cons : Starts t.pos (t :: ts) := ⟨t, ts, rfl, rfl⟩

theorem Starts.single (t : Token) : Starts t.pos [t] := .cons

theorem Stops.single (t : Token) : Stops t.stop [t] := ⟨[], t, rfl, rfl⟩

theorem Stops.ident (t : Token) : Stops t.ident.span.stop [t] := .single t

theorem Starts.append (h : Starts pos ts) (us : List Token) : Starts pos (ts ++ us) := by
  obtain ⟨t, rest, rfl, ht⟩ := h
  exact ⟨t, rest ++ us, rfl, ht⟩

theorem Stops.append (h : Stops stop us) (ts : List Token) : Stops stop (ts ++ us) := by
  obtain ⟨init, t, rfl, ht⟩ := h
  exact ⟨ts ++ init, t, (append_assoc _ _ _).symm, ht⟩

theorem Stops.ne_nil (h : Stops stop ts) : ts ≠ [] := by
  obtain ⟨init, t, rfl, -⟩ := h
  exact append_ne_nil_of_right_ne_nil init (cons_ne_nil t [])

theorem Token.Is.stop_eq (h : t.Is kind) : t.stop = t.pos + (Bytes.ofString kind.label).length := by
  rw [Token.stop, h.2]

theorem Token.Is.stops (h : t.Is kind) : Stops (t.pos + (Bytes.ofString kind.label).length) [t] :=
  h.stop_eq ▸ .single t

/-! ## Outlines that cover runs -/

/-- A node is written by some tokens. Only expressions and statements are looked at. -/
def Node.ReadFrom : Node → List Token → Prop
  | .expr e, ts => Reads (.expr e) ts
  | .stmt s, ts => Reads (.stmt s) ts
  | _, _ => True

/-- Outlines that cover runs of some tokens, one after the other, where `rest` comes next. Tokens
may be left over. A block without statements covers none: it stands in front of a token, which may
be the first of `rest`. -/
inductive Covers : List Outline → List Token → List Token → Prop where
  | nil {ts rest : List Token} : Covers [] ts rest
  | empty {pos : Nat} {os : List Outline} {before after rest : List Token} :
      Starts pos (after ++ rest) → Covers os after rest →
      Covers (.mk (.block (.mk pos [])) [] :: os) (before ++ after) rest
  | cons {node : Node} {children os : List Outline} {before run after rest : List Token} :
      node.ReadFrom run → Starts node.span.start run → Stops node.span.stop run →
      Covers children run (after ++ rest) → Covers os after rest →
      Covers (.mk node children :: os) (before ++ run ++ after) rest

/-- Outlines that cover runs of some tokens, whatever comes after those. -/
def Fits (os : List Outline) (ts : List Token) : Prop := ∀ rest, Covers os ts rest

namespace Covers

variable {node : Node} {children os os' : List Outline} {rest : List Token}

theorem empty_head (hpos : Starts pos (ts ++ rest)) (h : Covers os ts rest) :
    Covers (.mk (.block (.mk pos [])) [] :: os) ts rest :=
  @Covers.empty _ _ [] _ _ hpos h

theorem cons_head (hread : node.ReadFrom ts) (hstart : Starts node.span.start ts)
    (hstop : Stops node.span.stop ts) (hc : Covers children ts (us ++ rest))
    (h : Covers os us rest) :
    Covers (.mk node children :: os) (ts ++ us) rest :=
  @Covers.cons _ _ _ [] _ _ _ hread hstart hstop hc h

theorem left (h : Covers os us rest) (ts : List Token) : Covers os (ts ++ us) rest := by
  cases h with
  | nil => exact .nil
  | empty hpos hos =>
    rw [← append_assoc]
    exact .empty hpos hos
  | cons hread hstart hstop hc hos =>
    rw [← append_assoc, ← append_assoc]
    exact .cons hread hstart hstop hc hos

theorem append (h : Covers os ts (us ++ rest)) (h' : Covers os' us rest) :
    Covers (os ++ os') (ts ++ us) rest := by
  generalize hall : us ++ rest = all at h
  induction h with
  | nil => exact h'.left _
  | empty hpos _ ih =>
    subst hall
    rw [append_assoc]
    exact .empty (by rwa [append_assoc]) (ih rfl)
  | cons hread hstart hstop hc _ _ ih =>
    subst hall
    rw [append_assoc]
    exact .cons hread hstart hstop (by rwa [append_assoc]) (ih rfl)

end Covers

namespace Fits

variable {node : Node} {children os os' : List Outline}

theorem nil : Fits [] ts := fun _ => .nil

theorem left (h : Fits os us) (ts : List Token) : Fits os (ts ++ us) := fun rest => (h rest).left ts

theorem append (h : Fits os ts) (h' : Fits os' us) : Fits (os ++ os') (ts ++ us) :=
  fun rest => (h (us ++ rest)).append (h' rest)

theorem right (h : Fits os ts) (us : List Token) : Fits os (ts ++ us) := by
  simpa using h.append (.nil : Fits [] us)

theorem whole (hread : node.ReadFrom ts) (hstart : Starts node.span.start ts)
    (hstop : Stops node.span.stop ts) (hc : Fits children ts) : Fits [.mk node children] ts := by
  intro rest
  have hcons := Covers.cons_head hread hstart hstop (hc ([] ++ rest)) .nil
  rwa [append_nil] at hcons

theorem ident (ht : t.kind = .name) : Fits [t.ident.outline] [t] :=
  .whole (.name ht) (.single t) (.single t) .nil

end Fits

/-! ## Names -/

theorem ReadsNames.fits (h : ReadsNames sep is ts) : Fits (is.map Ident.outline) ts := by
  induction h with
  | nil => exact .nil
  | cons _ hu _ ih => exact ((Fits.ident hu).left _).append ih

theorem ReadsNames.stops (h : ReadsNames sep is ts) {i : Ident} (hi : Stops i.span.stop us)
    (default : Ident) : Stops ((i :: is).reverse.headD default).span.stop (us ++ ts) := by
  induction h generalizing i us with
  | nil => simpa using hi
  | @cons t u is ts _ _ _ ih =>
    have hlast : (i :: u.ident :: is).reverse.headD default =
        (u.ident :: is).reverse.headD default := by
      cases hrev : (u.ident :: is).reverse with
      | nil => simp at hrev
      | cons j js => rw [reverse_cons, hrev]; rfl
    rw [hlast, ← append_assoc]
    exact ih ((Stops.single u).append _ |>.append _)

theorem ReadsLocal.fits {n : LocalName} (h : ReadsLocal n ts) :
    Fits [n.ident.outline] ts ∧ Stops n.stop ts := by
  cases h with
  | plain ht => exact ⟨.ident ht, .single _⟩
  | @attributed t l w g ht _ _ _ =>
    exact ⟨(((Fits.ident ht).right [l]).right [w]).right [g], (Stops.single g).append _⟩

theorem ReadsLocals.fits {ns : List LocalName} (h : ReadsLocals ns ts) :
    Fits (ns.map fun n => n.ident.outline) ts ∧ ∀ n ∈ ns.getLast?, Stops n.stop ts := by
  induction h with
  | last hn => exact ⟨hn.fits.1, by simpa using hn.fits.2⟩
  | @cons n ns c ts us hn _ hns ih =>
    refine ⟨(hn.fits.1.right _).append ih.1, ?_⟩
    cases ns with
    | nil => cases hns
    | cons n' ns =>
      rw [getLast?_cons_cons]
      exact fun m hm => (ih.2 m hm).append _

theorem ReadsParams.fits {v : Option Nat} (h : ReadsParams is v ts) :
    Fits (is.map Ident.outline) ts := by
  induction h with
  | vararg => exact .nil
  | last ht => exact .ident ht
  | cons ht _ _ ih => exact ((Fits.ident ht).right _).append ih

theorem ReadsFuncName.ends (h : ReadsFuncName n ts) :
    Starts n.span.start ts ∧ Stops n.span.stop ts := by
  cases h with
  | @plain t is ts _ hnames =>
    exact ⟨.cons, hnames.stops (.ident t) t.ident⟩
  | @method t c m is ts _ hnames _ _ =>
    exact ⟨.cons, (Stops.single m).append _⟩

theorem ReadsFuncName.fits (h : ReadsFuncName n ts) : Fits [n.outline] ts := by
  refine .whole trivial h.ends.1 h.ends.2 ?_
  cases h with
  | plain ht hnames => simpa [FuncName.names] using (Fits.ident ht).append hnames.fits
  | @method t c m is ts ht hnames _ hm =>
    have := (((Fits.ident ht).append hnames.fits).right [c]).append (Fits.ident hm)
    simpa [FuncName.names] using this

/-! ## Phrases -/

/-- The statements of a block cover a run of tokens; separators may stand before and after it. -/
def StmtsFit (ss : List Stmt) (ts : List Token) : Prop :=
  ∃ before run after, ts = before ++ run ++ after ∧ Fits (Stmt.outlines ss) run ∧
    (∀ s ∈ ss.head?, Starts s.start run) ∧ ∀ s ∈ ss.getLast?, Stops s.stop run

/-- What the tokens of a phrase say about the ranges of its nodes. -/
def Phrase.Fit : Phrase → List Token → Prop
  | .expr e, ts => Starts e.start ts ∧ Stops e.stop ts ∧ Fits [e.outline] ts
  | .exprs es, ts => Fits (Expr.outlines es) ts ∧ (∀ e ∈ es.head?, Starts e.start ts) ∧
      (es ≠ [] → ∀ default, Stops (Expr.stopOf default es) ts)
  | .args form es, ts => Fits (Expr.outlines es) ts ∧
      ∀ callee method, Stops (Expr.call callee method form es).stop ts
  | .field f, ts => Fits (TableField.outlines [f]) ts
  | .fields fs, ts => Fits (TableField.outlines fs) ts
  | .body b, ts => Starts b.span.start ts ∧ Stops b.stop ts ∧ Fits [b.outline] ts
  | .stmt s, ts => Starts s.start ts ∧ Stops s.stop ts ∧ Fits [s.outline] ts
  | .stmts ss, ts => StmtsFit ss ts
  | .branches arms otherwise endPos, ts =>
      Fits (ElseIf.outlines arms ++ otherwise.outlines) ts ∧ Stops (endPos + 3) ts

theorem Block.span_cons (pos : Nat) (s : Stmt) (ss : List Stmt) {last : Stmt}
    (h : (s :: ss).getLast? = some last) :
    (mk pos (s :: ss)).span = ⟨s.start, last.stop⟩ := by
  simp [span, h]

/-- A block that is not empty reaches from its first statement to its last. -/
theorem StmtsFit.block (h : StmtsFit ss ts) (hne : ss ≠ []) (pos : Nat) :
    Fits [(mk pos ss).outline] ts := by
  obtain ⟨before, run, after, rfl, hfits, hstart, hstop⟩ := h
  obtain ⟨s, ss, rfl⟩ := exists_cons_of_ne_nil hne
  obtain ⟨last, hlast⟩ : ∃ last, (s :: ss).getLast? = some last :=
    ⟨_, getLast?_eq_some_getLast (cons_ne_nil s ss)⟩
  have hspan : (Node.block (.mk pos (s :: ss))).span = ⟨s.start, last.stop⟩ :=
    span_cons pos s ss hlast
  rw [outline]
  refine (Fits.left ?_ before).right after
  refine .whole trivial ?_ ?_ hfits
  · rw [hspan]
    exact hstart s rfl
  · rw [hspan]
    exact hstop last hlast

theorem Starts.firstPos (ts : List Token) (hne : us ≠ []) :
    Starts (Token.firstPos (ts ++ us)) (ts ++ us) := by
  obtain ⟨t, rest, heq⟩ := exists_cons_of_ne_nil (append_ne_nil_of_right_ne_nil ts hne)
  exact ⟨t, rest, heq, by rw [heq]; rfl⟩

/-- A block between other outlines. Without statements it stands at its first separator or else at
the token after it. -/
theorem Fits.block {os' : List Outline} {vs : List Token} (h : Fits os ts) (hss : StmtsFit ss us)
    (hne : vs ≠ []) (h' : Fits os' vs) :
    Fits (os ++ (mk (Token.firstPos (us ++ vs)) ss).outline :: os') (ts ++ us ++ vs) := by
  rw [append_assoc]
  refine h.append ?_
  by_cases hnil : ss = []
  · subst hnil
    intro rest
    exact .empty_head ((Starts.firstPos us hne).append rest) ((h' rest).left us)
  · exact (hss.block hnil _).append h'

/-- An arm of a conditional in front of other outlines. -/
theorem Fits.arm {t h : Token} {cond : Expr} {cs vs : List Token} (hthen : h.Is (.keyword .then))
    (hcond : Fits [cond.outline] cs) (hss : StmtsFit ss us) (hne : vs ≠ []) (h' : Fits os vs) :
    Fits (outlines [.mk t.pos cond h.pos (.mk (Token.firstPos (us ++ vs)) ss)] ++ os)
      ([t] ++ cs ++ [h] ++ us ++ vs) := by
  have hhead : Fits [cond.outline] ([t] ++ cs ++ [h]) := (hcond.left [t]).right [h]
  have hstart : Starts t.pos ([t] ++ cs ++ [h]) := .cons
  rw [outlines, outlines]
  cases ss with
  | nil =>
    -- Without statements the arm ends with its `then`, and its block stands past its end.
    intro rest
    have hblock : Covers [(mk (Token.firstPos (us ++ vs)) []).outline] []
        (us ++ vs ++ rest) := .empty_head ((Starts.firstPos us hne).append rest) .nil
    have hchildren := (hhead ([] ++ (us ++ vs ++ rest))).append hblock
    have hstop : Stops (h.pos + 4) ([t] ++ cs ++ [h]) := hthen.stops.append _
    rw [append_nil] at hchildren
    rw [append_assoc _ us]
    exact .cons_head trivial hstart hstop hchildren ((h' rest).left us)
  | cons s ss =>
    obtain ⟨before, run, after, rfl, hfits, hfirst, hstop⟩ := hss
    obtain ⟨last, hlast⟩ : ∃ last, (s :: ss).getLast? = some last :=
      ⟨_, getLast?_eq_some_getLast (cons_ne_nil s ss)⟩
    have hspan : ∀ pos, (Node.elseIf (.mk t.pos cond h.pos (.mk pos (s :: ss)))).span =
        ⟨t.pos, last.stop⟩ := by
      intro pos
      simp [Node.span, ElseIf.span, stmts, span_cons pos s ss hlast]
    have hbody : StmtsFit (s :: ss) (before ++ run) :=
      ⟨before, run, [], (append_nil _).symm, hfits, hfirst, hstop⟩
    refine .append ?_ h'
    rw [← append_assoc]
    refine Fits.right ?_ after
    refine .whole trivial ?_ ?_ (hhead.append (hbody.block (cons_ne_nil s ss) _))
    · rw [hspan]
      exact hstart.append _
    · rw [hspan, ← append_assoc]
      exact (hstop last hlast).append _

theorem StmtsFit.semicolon (h : StmtsFit ss ts) (t : Token) : StmtsFit ss ([t] ++ ts) := by
  obtain ⟨before, run, after, rfl, hrest⟩ := h
  exact ⟨[t] ++ before, run, after, by simp, hrest⟩

theorem StmtsFit.cons (hstart : Starts s.start ts) (hstop : Stops s.stop ts)
    (hs : Fits [s.outline] ts) (h : StmtsFit ss us) : StmtsFit (s :: ss) (ts ++ us) := by
  obtain ⟨before, run, after, rfl, hfits, -, hlast⟩ := h
  rw [StmtsFit]
  cases ss with
  | nil =>
    refine ⟨[], ts, before ++ run ++ after, rfl, ?_, by simpa using hstart, by simpa using hstop⟩
    rwa [Stmt.outlines, Stmt.outlines]
  | cons s' ss =>
    refine ⟨[], ts ++ before ++ run, after, by simp, ?_, ?_, ?_⟩
    · rw [Stmt.outlines]
      exact (hs.right before).append hfits
    · intro first hfirst
      cases hfirst
      exact (hstart.append before).append run
    · rw [getLast?_cons_cons]
      exact fun last h => (hlast last h).append _

theorem fit_expr {e : Expr} (hread : Reads (.expr e) ts) (hstart : Starts e.start ts)
    (hstop : Stops e.stop ts) (houtline : e.outline = .mk (.expr e) children)
    (hc : Fits children ts) : Phrase.Fit (.expr e) ts :=
  ⟨hstart, hstop, houtline ▸ .whole hread hstart hstop hc⟩

theorem fit_stmt (hread : Reads (.stmt s) ts) (hstart : Starts s.start ts)
    (hstop : Stops s.stop ts) (houtline : s.outline = .mk (.stmt s) children)
    (hc : Fits children ts) : Phrase.Fit (.stmt s) ts :=
  ⟨hstart, hstop, houtline ▸ .whole hread hstart hstop hc⟩

theorem TableField.outlines_cons (f : TableField) (fs : List TableField) :
    TableField.outlines (f :: fs) = TableField.outlines [f] ++ TableField.outlines fs := by
  cases f <;> simp [TableField.outlines]

theorem ElseIf.outlines_cons (arm : ElseIf) (arms : List ElseIf) :
    outlines (arm :: arms) = outlines [arm] ++ outlines arms := by
  cases arm
  simp [outlines]

/-- What is written by tokens covers them, by induction on how it is written. -/
theorem Reads.fits {p : Phrase} (h : Reads p ts) : p.Fit ts := by
  induction h with
  | nil ht => exact fit_expr (.nil ht) (.single _) ht.stops rfl .nil
  | true ht => exact fit_expr (.true ht) (.single _) ht.stops rfl .nil
  | false ht => exact fit_expr (.false ht) (.single _) ht.stops rfl .nil
  | number ht => exact fit_expr (.number ht) (.single _) (.single _) rfl .nil
  | string ht => exact fit_expr (.string ht) (.single _) (.single _) rfl .nil
  | vararg ht => exact fit_expr (.vararg ht) (.single _) ht.stops rfl .nil
  | name ht => exact fit_expr (.name ht) (.single _) (.single _) rfl .nil
  | @functionExpr t b ts ht hb ih =>
    have hread := Reads.functionExpr ht hb
    obtain ⟨lparen, params, vararg, rparen, body, endPos⟩ := b
    exact fit_expr hread .cons (ih.2.1.append _) rfl (ih.2.2.left _)
  | table hl hfs hr ih =>
    exact fit_expr (.table hl hfs hr) .cons (hr.stops.append _) rfl
      ((Fits.left ih _).right _)
  | binary hl ht hr ihl ihr =>
    exact fit_expr (.binary hl ht hr) ((ihl.1.append _).append _) (ihr.2.1.append _) rfl
      ((ihl.2.2.right _).append ihr.2.2)
  | unary ht he ih =>
    exact fit_expr (.unary ht he) .cons (ih.2.1.append _) rfl (ih.2.2.left _)
  | paren hl he hr ih =>
    exact fit_expr (.paren hl he hr) .cons (hr.stops.append _) rfl
      ((ih.2.2.left _).right _)
  | fieldAccess he hd ht ih =>
    exact fit_expr (.fieldAccess he hd ht) ((ih.1.append _).append _) ((Stops.ident _).append _) rfl
      ((ih.2.2.right _).append (.ident ht))
  | element he hl hkey hr ih ihk =>
    exact fit_expr (.element he hl hkey hr) (((ih.1.append _).append _).append _)
      (hr.stops.append _) rfl (((ih.2.2.right _).append ihk.2.2).right _)
  | call hcallee hargs ih iha =>
    exact fit_expr (.call hcallee hargs) (ih.1.append _) ((iha.2 _ none).append _) rfl
      (ih.2.2.append iha.1)
  | methodCall hcallee hc hm hargs ih iha =>
    exact fit_expr (.methodCall hcallee hc hm hargs) (((ih.1.append _).append _).append _)
      ((iha.2 _ _).append _) rfl (((ih.2.2.right _).append (.ident hm)).append iha.1)
  | noExprs => exact ⟨.nil, by simp, fun h => absurd rfl h⟩
  | oneExpr _ ih =>
    refine ⟨ih.2.2, by simpa using ih.1, fun _ default => ?_⟩
    rw [Expr.stopOf, Expr.stopOf]
    exact ih.2.1
  -- The range of a list goes from its first expression to its last one.
  | @consExpr e e' es c ts us _ _ _ ih ihs =>
    refine ⟨(ih.2.2.right [c]).append ihs.1, ?_, fun _ default => ?_⟩
    · intro first hfirst
      cases hfirst
      exact (ih.1.append [c]).append us
    · rw [Expr.stopOf]
      exact (ihs.2.2 (cons_ne_nil _ _) e.stop).append _
  | @argList l r es ts _ _ hr ih =>
    exact ⟨(ih.1.left [l]).right [r], fun _ _ => hr.stops.append _⟩
  -- A call ends with its argument when that stands without parentheses.
  | bareArg _ _ ih =>
    refine ⟨ih.2.2, fun callee method => ?_⟩
    rw [Expr.stop, Expr.stopOf, Expr.stopOf]
    exact ih.2.1
  | positional _ ih => exact .whole trivial ih.1 ih.2.1 ih.2.2
  | named ht _ _ ih =>
    exact .whole trivial .cons (ih.2.1.append _) (((Fits.ident ht).right _).append ih.2.2)
  | keyed _ _ _ _ _ ihk ih =>
    exact .whole trivial .cons (ih.2.1.append _)
      ((((ihk.2.2.left _).right _).right _).append ih.2.2)
  | noFields => exact .nil
  | oneField _ ih => exact ih
  | @consField f fs c ts us _ _ _ ih ihs =>
    show Fits (TableField.outlines (f :: fs)) _
    rw [TableField.outlines_cons]
    exact (Fits.right ih [c]).append ihs
  -- The parameters stand in front of the block, and the closing `end` behind it.
  | @body l r e params vararg ss ps ts _ hparams _ _ hend ih =>
    have hps : Fits (params.map Ident.outline) ps := by
      rcases hparams with hparams | ⟨rfl, -, -⟩
      · exact hparams.fits
      · exact .nil
    have hstart : Starts l.pos ([l] ++ ps ++ [r] ++ ts ++ [e]) :=
      .cons
    refine ⟨hstart, hend.stops.append _, ?_⟩
    refine .whole trivial hstart (hend.stops.append _) ?_
    exact ((hps.left [l]).right [r]).block ih (cons_ne_nil e []) .nil
  | @localNames t names ns ht hns =>
    obtain ⟨hfits, hlast⟩ := hns.fits
    -- Without values the statement ends with its last name.
    obtain ⟨n, hn⟩ : ∃ n, names.getLast? = some n := by
      cases hns with
      | last => exact ⟨_, rfl⟩
      | cons => exact ⟨_, getLast?_eq_some_getLast (cons_ne_nil _ _)⟩
    refine fit_stmt (.localNames ht hns) .cons ?_ rfl ?_
    · rw [Stmt.stop, Expr.stopOf, hn]
      exact (hlast n hn).append _
    · rw [Expr.outlines, append_nil]
      exact hfits.left [t]
  | localAssign ht hns ha hne hvalues ih =>
    exact fit_stmt (.localAssign ht hns ha hne hvalues) .cons ((ih.2.2 hne _).append _) rfl
      (((hns.fits.1.left _).right _).append ih.1)
  | @assign targets values a ts us hne htargets ha hne' hvalues ih ihv =>
    have hread := Reads.assign hne htargets ha hne' hvalues
    obtain ⟨e, es, rfl⟩ := exists_cons_of_ne_nil hne
    exact fit_stmt hread (((ih.2.1 e rfl).append [a]).append us) ((ihv.2.2 hne' _).append _) rfl
      ((ih.1.right [a]).append ihv.1)
  | callStmt hcall ih => exact fit_stmt (.callStmt hcall) ih.1 ih.2.1 rfl ih.2.2
  | doBlock ht hss hend ih =>
    exact fit_stmt (.doBlock ht hss hend) .cons (hend.stops.append _) rfl
      (Fits.nil.block ih (cons_ne_nil _ _) .nil)
  | whileLoop ht hcond hd hss hend ihc ih =>
    exact fit_stmt (.whileLoop ht hcond hd hss hend) .cons (hend.stops.append _) rfl
      (((ihc.2.2.left _).right _).block ih (cons_ne_nil _ _) .nil)
  | @repeatLoop t u cond ss ts cs ht hss hu hcond ih ihc =>
    -- The condition of this loop stands behind its block.
    have hbody : Fits [(mk (Token.firstPos (ts ++ [u])) ss).outline] ([t] ++ ts ++ [u]) :=
      Fits.nil.block ih (cons_ne_nil u []) .nil
    exact fit_stmt (.repeatLoop ht hss hu hcond) .cons (ihc.2.1.append _) rfl
      (hbody.append ihc.2.2)
  | ifThen ht hcond hh hss hbranches ihc ih ihb =>
    exact fit_stmt (.ifThen ht hcond hh hss hbranches) .cons (ihb.2.append _) rfl
      (((ihc.2.2.left _).right _).block ih ihb.2.ne_nil ihb.1)
  | @countingFor t _ a c _ _ _ _ _ _ _ _ ht hv ha hfirst hc hlimit hd hss hend ihf ihl ih =>
    refine fit_stmt (.countingFor ht hv ha hfirst hc hlimit hd hss hend) .cons (hend.stops.append _)
      rfl ?_
    have hvar := ((Fits.ident hv).left [t]).right [a]
    have hfirst := (hvar.append ihf.2.2).right [c]
    exact ((hfirst.append ihl.2.2).right _).block ih (cons_ne_nil _ _) .nil
  | @steppingFor t _ a c c' _ _ _ _ _ _ _ _ _ _ ht hv ha hfirst hc hlimit hc' hstep hd hss hend ihf
      ihl ihs ih =>
    refine fit_stmt (.steppingFor ht hv ha hfirst hc hlimit hc' hstep hd hss hend) .cons
      (hend.stops.append _) rfl ?_
    have hvar := ((Fits.ident hv).left [t]).right [a]
    have hfirst := (hvar.append ihf.2.2).right [c]
    have hlimit := (hfirst.append ihl.2.2).right [c']
    exact ((hlimit.append ihs.2.2).right _).block ih (cons_ne_nil _ _) .nil
  | @genericFor t _ n _ _ _ _ _ _ _ _ ht hv hns hn hes hd hss hend ihe ih =>
    refine fit_stmt (.genericFor ht hv hns hn hes hd hss hend) .cons (hend.stops.append _) rfl ?_
    have hnames := (((Fits.ident hv).left [t]).append hns.fits).right [n]
    exact ((hnames.append ihe.1).right _).block ih (cons_ne_nil _ _) .nil
  | functionStmt ht hn hb ih =>
    exact fit_stmt (.functionStmt ht hn hb) .cons (ih.2.1.append _) rfl
      ((hn.fits.left _).append ih.2.2)
  | localFunction ht hf hn hb ih =>
    exact fit_stmt (.localFunction ht hf hn hb) .cons (ih.2.1.append _) rfl
      (((Fits.ident hn).left _).append ih.2.2)
  | @ret t values ts ht hvalues ih =>
    refine fit_stmt (.ret ht hvalues) .cons ?_ rfl (ih.1.left [t])
    -- A `return` alone ends with its keyword.
    cases values with
    | nil =>
      cases hvalues
      rw [append_nil]
      exact ht.stops
    | cons e es => exact (ih.2.2 (cons_ne_nil _ _) (t.pos + 6)).append _
  | brk ht => exact fit_stmt (.brk ht) (.single _) ht.stops rfl .nil
  | @goto t n ht hn =>
    exact fit_stmt (.goto ht hn) .cons ((Stops.ident n).append _) rfl ((Fits.ident hn).left _)
  | @label t n u ht hn hu =>
    exact fit_stmt (.label ht hn hu) .cons ((Stops.single u).append _) rfl
      (((Fits.ident hn).left _).right _)
  | noStmts => exact ⟨[], [], [], rfl, .nil, by simp, by simp⟩
  | @semicolon t ss ts _ _ ih => exact StmtsFit.semicolon ih t
  | consStmt _ _ ih ihs => exact StmtsFit.cons ih.1 ih.2.1 ih.2.2 ihs
  | noBranch he => exact ⟨.nil, he.stops⟩
  | elseBranch _ _ he ih =>
    exact ⟨Fits.nil.block ih (cons_ne_nil _ _) .nil, he.stops.append _⟩
  | elseIfBranch _ _ hthen _ _ ihc ih ihb =>
    refine ⟨?_, ihb.2.append _⟩
    rw [outlines_cons, append_assoc]
    exact .arm hthen ihc.2.2 ih ihb.2.ne_nil ihb.1

end LuaLint
