import LuaLint.Proofs.Scope.Places

/-!
# The constructs behind events

Every event of a chunk is the doing of one of its constructs. Most uses of a name only read it; the
others come from statements, which declare, assign or name something. Conversely all that a
statement does takes place, wherever in the chunk the statement stands.

Main statements: `Chunk.arises`, `Chunk.events_stmt_subset`.
-/

namespace LuaLint

open List Outline Stmt

variable {ns ns' : List Node} {d : Declaration} {e : Expr} {s : Stmt} {pos equal : Nat}
  {names : List LocalName} {values targets : List Expr} {i : Ident} {n : LocalName}

/-! ## Events and constructs -/

def Stmt.loopVariables : Stmt → List Ident
  | .numericFor _ var _ _ _ _ _ => [var]
  | .genericFor _ names _ _ _ => names
  | _ => []

/-- The range of the definition that a statement makes of a name. It is the statement as a whole,
but for the variable of a counting loop only the part up to the first value. -/
inductive Stmt.Defines : Stmt → Ident → Span → Prop where
  | whole {s : Stmt} {i : Ident} : i ∈ s.localNames → s.Defines i s.span
  | counter {pos endPos : Nat} {i : Ident} {start limit : Expr} {step : Option Expr}
    {body : Block} :
      Defines (.numericFor pos i start limit step body endPos) i ⟨i.pos, start.stop⟩

/-- What is declared is defined by itself, or by a statement among some nodes. -/
def Declaration.DefinedIn (ns : List Node) (d : Declaration) : Prop :=
  d.definition = d.identifier ∨
    ∃ s i, .stmt s ∈ ns ∧ s.Defines i d.definition ∧ d.identifier = i.span

theorem Declaration.DefinedIn.mono (h : d.DefinedIn ns) (hsub : ns ⊆ ns') : d.DefinedIn ns' :=
  h.imp_right fun ⟨s, i, hs, hdef⟩ => ⟨s, i, hsub hs, hdef⟩

/-- The event is the doing of a construct among some nodes. -/
inductive ScopeEvent.ArisesIn (ns : List Node) : ScopeEvent → Prop where
  | enter (kind : ScopeKind) (span : Span) : ArisesIn ns (.enter kind span)
  | leave : ArisesIn ns .leave
  /-- A name is read, alone or at the base of a chain. -/
  | read {u : Use} : u.usage.read = true → u.usage.write = none →
      u.usage.indexing = [] ∨ (∃ e, .expr e ∈ ns ∧ u.usage.indexing = staticIndexing e.links) →
      ArisesIn ns (.use u)
  | initialised {pos : Nat} {names : List LocalName} {values : List Expr} {n : LocalName}
    {e : Expr} :
      .stmt (.localAssign pos names values) ∈ ns → (n, e) ∈ names.zip values →
      ArisesIn ns (.use ⟨n.ident.name, n.ident.span, .assigning (some e.span)⟩)
  | loopVariable {s : Stmt} {i : Ident} {value : Option Span} :
      .stmt s ∈ ns → i ∈ s.loopVariables → ArisesIn ns (.use ⟨i.name, i.span, .assigning value⟩)
  /-- A field or an element is assigned to, by way of the name at the base of a chain. -/
  | chain {targets values : List Expr} {equal : Nat} {e : Expr} {i : Ident} {value : Option Span} :
      .stmt (.assign targets equal values) ∈ ns → e ∈ targets → e.asName? = none →
      e.base = .name i → ArisesIn ns (.use ⟨i.name, i.span, e.usage (some .assign) value⟩)
  | target {targets values : List Expr} {equal : Nat} {i : Ident} {value : Option Span} :
      .stmt (.assign targets equal values) ∈ ns → .name i ∈ targets →
      ArisesIn ns (.assign ⟨i.name, i.span, .assigning value⟩)
  | functionName {pos : Nat} {i : Ident} {body : FuncBody} :
      .stmt (.function pos ⟨i, [], none⟩ body) ∈ ns →
      ArisesIn ns (.assign ⟨i.name, i.span, ⟨true, some .assign, some body.span, []⟩⟩)
  | fieldName {pos : Nat} {n : FuncName} {body : FuncBody} :
      .stmt (.function pos n body) ∈ ns →
      ArisesIn ns (.extend ⟨n.base.name, n.base.span, ⟨true, some .extend, some body.span,
        (n.fields ++ n.method.toList).map fun i => ⟨i.name, i.span⟩⟩⟩ n.span)
  | call {callee : Expr} {method : Option Ident} {form : CallForm} {args : List Expr}
      {c : CallEvent} :
      .stmt (.call callee method form args) ∈ ns →
      .call c ∈ (Call.mk callee method form args).events → ArisesIn ns (.call c)
  | declared {d : Declaration} : d.value = .unknown → d.DefinedIn ns → ArisesIn ns (.declare d)
  | initial {pos : Nat} {names : List LocalName} {values : List Expr} {n : LocalName} {e : Expr}
      {d : Declaration} :
      .stmt (.localAssign pos names values) ∈ ns → (n, e) ∈ names.zip values →
      d.identifier = n.ident.span → d.value = e.initialValue → d.DefinedIn ns →
      ArisesIn ns (.declare d)

theorem ScopeEvent.ArisesIn.mono {e : ScopeEvent} (h : e.ArisesIn ns) (hsub : ns ⊆ ns') :
    e.ArisesIn ns' := by
  cases h with
  | enter kind span => exact .enter kind span
  | leave => exact .leave
  | read hread hwrite hindexing =>
    exact .read hread hwrite (hindexing.imp_right fun ⟨e, he, hlinks⟩ => ⟨e, hsub he, hlinks⟩)
  | initialised hs hmem => exact .initialised (hsub hs) hmem
  | loopVariable hs hmem => exact .loopVariable (hsub hs) hmem
  | chain hs hmem hname hbase => exact .chain (hsub hs) hmem hname hbase
  | target hs hmem => exact .target (hsub hs) hmem
  | functionName hs => exact .functionName (hsub hs)
  | fieldName hs => exact .fieldName (hsub hs)
  | call hs hmem => exact .call (hsub hs) hmem
  | declared hvalue hdef => exact .declared hvalue (hdef.mono hsub)
  | initial hs hmem hident hvalue hdef =>
    exact .initial (hsub hs) hmem hident hvalue (hdef.mono hsub)

theorem ScopeEvent.ArisesIn.definedIn (h : (ScopeEvent.declare d).ArisesIn ns) :
    d.DefinedIn ns := by
  cases h with
  | declared _ hdef => exact hdef
  | initial _ _ _ _ hdef => exact hdef

/-- The use that the chain around an expression makes of the name at its base. -/
def Expr.baseUse (usage : Option Usage) (e : Expr) : List ScopeEvent :=
  match usage, e.base with
  | some u, .name i => [.use ⟨i.name, i.span, u⟩]
  | _, _ => []

theorem Expr.exists_of_mem_baseUse {usage : Option Usage} {ev : ScopeEvent}
    (h : ev ∈ e.baseUse usage) :
    ∃ u i, usage = some u ∧ e.base = .name i ∧ ev = .use ⟨i.name, i.span, u⟩ := by
  unfold baseUse at h
  split at h
  · next u i hbase => exact ⟨u, i, rfl, hbase, mem_singleton.mp h⟩
  · cases h

/-- Some outlines account for some events: each event but those of the surroundings arises in a
node, and the events of a statement among the nodes are there. -/
structure Accounts (outer : List ScopeEvent) (os : List Outline) (es : List ScopeEvent) : Prop where
  arise : ∀ e ∈ es, e.ArisesIn (Outline.nodesOf os) ∨ e ∈ outer
  whole : ∀ s, .stmt s ∈ Outline.nodesOf os → s.events ⊆ es

namespace Accounts

variable {outer outer' es es' : List ScopeEvent} {os os' : List Outline}

theorem nil : Accounts [] [] [] := ⟨forall_mem_nil _, fun _ hs => absurd hs not_mem_nil⟩

theorem outside (es : List ScopeEvent) : Accounts es [] es :=
  ⟨fun _ he => .inr he, fun _ hs => absurd hs not_mem_nil⟩

/-- Parts that follow each other account for their events together. -/
theorem append (h : Accounts outer os es) (h' : Accounts outer os' es') :
    Accounts outer (os ++ os') (es ++ es') := by
  constructor
  · rw [nodesOf_append, forall_mem_append]
    refine ⟨fun e he => ?_, fun e he => ?_⟩
    · exact (h.arise e he).imp_left (·.mono (subset_append_left _ _))
    · exact (h'.arise e he).imp_left (·.mono (subset_append_right _ _))
  · intro s hs
    rw [nodesOf_append, mem_append] at hs
    rcases hs with hs | hs
    · exact subset_append_of_subset_left _ (h.whole s hs)
    · exact subset_append_of_subset_right _ (h'.whole s hs)

theorem perm (h : Accounts outer os es) (hes : es.Perm es') : Accounts outer os es' :=
  ⟨fun e he => h.arise e (hes.mem_iff.mpr he),
    fun s hs => Subset.trans (h.whole s hs) hes.subset⟩

theorem settle (h : Accounts outer os es)
    (houter : ∀ e ∈ outer, e.ArisesIn (Outline.nodesOf os) ∨ e ∈ outer') : Accounts outer' os es :=
  ⟨fun e he => (h.arise e he).elim .inl (houter e), h.whole⟩

theorem mono (h : Accounts outer os es) (hsub : outer ⊆ outer') : Accounts outer' os es :=
  h.settle fun _ he => .inr (hsub he)

theorem weaken (h : Accounts [] os es) (outer : List ScopeEvent) : Accounts outer os es :=
  h.mono (nil_subset outer)

theorem wrap (h : Accounts outer os es) (node : Node) (hnode : ∀ s, node ≠ .stmt s) :
    Accounts outer [.mk node os] es := by
  constructor
  · intro e he
    rw [nodesOf_cons]
    exact (h.arise e he).imp_left (·.mono (subset_cons_of_subset _ (subset_append_left _ _)))
  · intro s hs
    rw [nodesOf_cons, nodesOf_nil, append_nil, mem_cons] at hs
    exact h.whole s (hs.resolve_left fun heq => hnode s heq.symm)

/-- A statement accounts for the events that its parts leave to it. -/
theorem stmt (h : Accounts outer os s.events)
    (houter : ∀ ns, .stmt s ∈ ns → ∀ e ∈ outer, e.ArisesIn ns) :
    Accounts [] [.mk (.stmt s) os] s.events := by
  constructor
  · intro e he
    rw [nodesOf_cons, nodesOf_nil, append_nil]
    refine .inl ((h.arise e he).elim (·.mono (subset_cons_self _ _)) ?_)
    exact houter _ mem_cons_self e
  · intro s' hs'
    rw [nodesOf_cons, nodesOf_nil, append_nil, mem_cons] at hs'
    rcases hs' with heq | hs'
    · cases heq
      exact Subset.refl _
    · exact h.whole s' hs'

theorem plain (h : Accounts [] os s.events) : Accounts [] [.mk (.stmt s) os] s.events :=
  h.stmt fun _ _ => forall_mem_nil _

theorem idents (h : Accounts outer os es) (is : List Ident) :
    Accounts outer (os ++ is.map Ident.outline) es := by
  induction is generalizing os with
  | nil =>
    rw [map_nil, append_nil]
    exact h
  | cons i is ih =>
    rw [map_cons, ← singleton_append, ← append_assoc]
    have hname := ((nil.wrap (.expr (.name i)) (by simp)).weaken outer)
    have hname := h.append hname
    rw [append_nil] at hname
    exact ih hname

theorem read (e : Expr) (name : Bytes) (span : Span) :
    Accounts [] [.mk (.expr e) []] [.use ⟨name, span, .reading⟩] :=
  ((outside [_]).wrap _ (by simp)).settle fun _ he =>
    .inl (mem_singleton.mp he ▸ .read rfl rfl (.inl rfl))

theorem own_last (h : Accounts [] os es) (own : List ScopeEvent) : Accounts own os (es ++ own) := by
  constructor
  · rw [forall_mem_append]
    exact ⟨(h.weaken own).arise, fun _ he => .inr he⟩
  · exact fun s hs => subset_append_of_subset_left _ (h.whole s hs)

theorem own_first (h : Accounts [] os es) (own : List ScopeEvent) : Accounts own os (own ++ es) :=
  (h.own_last own).perm perm_append_comm

theorem both (h : Accounts [] os es) (h' : ∀ e ∈ es', e.ArisesIn (Outline.nodesOf os)) :
    Accounts [] os (es ++ es') :=
  (h.own_last es').settle fun e he => .inl (h' e he)

/-- The scope of a loop opens behind its header. -/
theorem loop {vars : List ScopeEvent} (kind : ScopeKind) (span : Span) (h : Accounts [] os es)
    (h' : Accounts [] os' es') :
    Accounts vars (os ++ os') (es ++ .enter kind span :: vars ++ es' ++ [.leave]) := by
  have hbody := (h.append h').own_last vars
  constructor
  · intro e he
    simp only [mem_append, mem_cons, not_mem_nil, or_false] at he
    rcases he with ((he | rfl | he) | he) | rfl
    · exact hbody.arise e (by simp [he])
    · exact .inl (.enter kind span)
    · exact .inr he
    · exact hbody.arise e (by simp [he])
    · exact .inl .leave
  · intro s hs e he
    have hmem := hbody.whole s hs he
    simp only [mem_append, mem_cons] at hmem ⊢
    tauto

theorem scope (kind : ScopeKind) (span : Span) (h : Accounts outer os es) :
    Accounts outer os (.enter kind span :: es ++ [.leave]) := by
  constructor
  · rw [cons_append, forall_mem_cons, forall_mem_append, forall_mem_singleton]
    exact ⟨.inl (.enter kind span), h.arise, .inl .leave⟩
  · intro s hs
    exact subset_append_of_subset_left _ (subset_cons_of_subset _ (h.whole s hs))

/-- A chain that reads the name at its base does so by itself. A chain within another one leaves it
to that. -/
theorem chain (e' : Expr) (usage : Option Usage)
    (h : Accounts (e.baseUse (some (usage.getD (e'.usage none none)))) os es) :
    Accounts (e.baseUse usage) [.mk (.expr e') os] es := by
  have hnode := h.wrap (.expr e') (by simp)
  cases usage with
  | some u' => exact hnode
  | none =>
    refine hnode.settle fun ev hev => .inl ?_
    obtain ⟨u', i, hu, -, rfl⟩ := Expr.exists_of_mem_baseUse hev
    cases hu
    exact .read (e'.read_usage none none) e'.write_usage_none
      (.inr ⟨e', by simp [nodesOf_cons], e'.indexing_usage none none⟩)

end Accounts

/-! ## What statements do by themselves -/

/-- What an assignment does to the name at the base of a target. -/
def Expr.targetUse (value : Option Span) : Expr → List ScopeEvent
  | .name i => [.assign ⟨i.name, i.span, .assigning value⟩]
  | e => e.baseUse (some (e.usage (some .assign) value))

def Expr.targetUses (values : List Span) : List Expr → List ScopeEvent
  | [] => []
  | e :: rest => e.targetUse values.head? ++ Expr.targetUses values.tail rest

section

variable {ns : List Node}

theorem arise_localNames {all : List LocalName} {every : List Expr}
    (hs : .stmt (.localAssign pos all every) ∈ ns) (hnames : names ⊆ all)
    (hsub : ∀ p ∈ names.zip values, p ∈ all.zip every) :
    ∀ e ∈ LocalName.events (localAssign pos all every).span names values, e.ArisesIn ns := by
  induction names generalizing values with
  | nil => exact forall_mem_nil _
  | cons n names ih =>
    obtain ⟨hn, hnames⟩ := cons_subset.mp hnames
    have hdef : ∀ {d : Declaration}, d.definition = (localAssign pos all every).span →
        d.identifier = n.ident.span → d.DefinedIn ns := fun hdef hident =>
      .inr ⟨_, n.ident, hs, hdef ▸ .whole (mem_map_of_mem hn), hident⟩
    cases values with
    | nil =>
      rw [LocalName.events, forall_mem_cons]
      exact ⟨.declared rfl (hdef rfl rfl), ih hnames (by simp)⟩
    | cons e values =>
      rw [zip_cons_cons, forall_mem_cons] at hsub
      rw [LocalName.events, forall_mem_cons, forall_mem_cons]
      exact ⟨.initial hs hsub.1 rfl rfl (hdef rfl rfl), .initialised hs hsub.1, ih hnames hsub.2⟩

theorem arise_targetUse (hs : .stmt (.assign targets equal values) ∈ ns) (he : e ∈ targets)
    (value : Option Span) : ∀ ev ∈ e.targetUse value, ev.ArisesIn ns := by
  intro ev hev
  unfold Expr.targetUse at hev
  split at hev
  · rw [mem_singleton.mp hev]
    exact .target hs he
  · next hname =>
    obtain ⟨u, i, hu, hbase, rfl⟩ := Expr.exists_of_mem_baseUse hev
    cases hu
    refine .chain hs he ?_ hbase
    unfold Expr.asName?
    split
    · next i => exact absurd rfl (hname i)
    · rfl

theorem arise_targetUses {all : List Expr} (hs : .stmt (.assign all equal values) ∈ ns)
    (hsub : targets ⊆ all) (spans : List Span) :
    ∀ e ∈ Expr.targetUses spans targets, e.ArisesIn ns := by
  induction targets generalizing spans with
  | nil => exact forall_mem_nil _
  | cons target targets ih =>
    have ⟨htarget, hrest⟩ := cons_subset.mp hsub
    exact forall_mem_append.mpr ⟨arise_targetUse hs htarget _, ih hrest spans.tail⟩

theorem arise_loopEvents (hs : .stmt s ∈ ns) (hi : i ∈ s.loopVariables) {definition : Span}
    (hdef : definition = i.span ∨ s.Defines i definition) (value : Option Span) :
    ∀ e ∈ i.loopEvents definition value, e.ArisesIn ns := by
  rw [Ident.loopEvents, forall_mem_cons, forall_mem_singleton]
  refine ⟨.declared rfl (hdef.imp_right fun hdef => ⟨s, i, hs, hdef, rfl⟩), .loopVariable hs hi⟩

theorem arise_event {n : FuncName} {body : FuncBody} (hs : .stmt (.function pos n body) ∈ ns) :
    (n.event body.span).ArisesIn ns := by
  obtain ⟨base, fields, method⟩ := n
  unfold FuncName.event
  split
  · next hnil =>
    obtain ⟨rfl, hmethod⟩ := append_eq_nil_iff.mp hnil
    cases method with
    | none => exact .functionName hs
    | some m => cases hmethod
  · exact .fieldName hs

theorem arise_call {callee : Expr} {method : Option Ident} {form : CallForm} {args : List Expr}
    (hs : .stmt (.call callee method form args) ∈ ns) :
    ∀ e ∈ (Call.mk callee method form args).events, e.ArisesIn ns := by
  intro e he
  have hcall := he
  unfold Call.events at he
  split at he
  · rw [mem_singleton.mp he] at hcall ⊢
    exact .call hs hcall
  · cases he

theorem arise_parameters (method : Option Ident) (params : List Ident) (vararg : Option Nat) :
    ∀ e ∈ method.toList.map Ident.selfEvent ++ params.map (fun i => .declare (.ofIdent i)) ++
      vararg.toList.map (fun pos => .declare (.ofIdent ⟨pos, varargName⟩)), e.ArisesIn ns := by
  intro e he
  simp only [mem_append, mem_map] at he
  rcases he with (⟨m, -, rfl⟩ | ⟨i, -, rfl⟩) | ⟨pos, -, rfl⟩
  · exact .declared rfl (.inl rfl)
  · exact .declared rfl (.inl rfl)
  · exact .declared rfl (.inl rfl)

end

/-! ## The events of syntax -/

mutual

theorem Expr.accounts : ∀ (e : Expr) (usage : Option Usage),
    Accounts (e.baseUse usage) [e.outline] (e.events usage)
  | .nil _, _ | .bool _ _, _ | .number _ _, _ | .string _ _ _, _ =>
    (Accounts.nil.wrap _ (by simp)).weaken _
  | .vararg _, _ => (Accounts.read _ _ _).weaken _
  | .name _, none => .read _ _ _
  | .name i, some u => (Accounts.outside _).wrap _ (by simp)
  | .function _ body, _ => ((FuncBody.accounts none body).wrap _ (by simp)).weaken _
  | .table _ fields _, _ => ((TableField.accounts fields).wrap _ (by simp)).weaken _
  | .binary _ _ left right, _ =>
    (((Expr.accounts left none).append (Expr.accounts right none)).wrap _ (by simp)).weaken _
  | .unary _ _ operand, _ => ((Expr.accounts operand none).wrap _ (by simp)).weaken _
  | .paren _ inner _, _ => ((Expr.accounts inner none).wrap _ (by simp)).weaken _
  | .field object n, usage => ((Expr.accounts object _).idents [n]).chain (.field object n) usage
  | .element object lbrack key rbrack, usage =>
    ((Expr.accounts object _).append ((Expr.accounts key none).weaken _)).chain
      (.element object lbrack key rbrack) usage
  | .call callee method form args, usage =>
    (((Expr.accounts callee _).idents method.toList).append ((Expr.accountsOf args).weaken _)).chain
      (.call callee method form args) usage

theorem Expr.accountsOf : ∀ es : List Expr, Accounts [] (Expr.outlines es) (Expr.eventsOf es)
  | [] => .nil
  | e :: rest => (Expr.accounts e none).append (Expr.accountsOf rest)

theorem Expr.accounts_targets : ∀ (es : List Expr) (values : List Span),
    Accounts (Expr.targetUses values es) (Expr.outlines es) (Expr.targetEvents values es).flatten
  | [], _ => .nil
  | e :: rest, values => by
    have he := (Expr.accounts e (some (e.usage (some .assign) values.head?))).mono
      (subset_append_left _ (Expr.targetUses values.tail rest))
    have hrest := (Expr.accounts_targets rest values.tail).mono
      (subset_append_right (e.targetUse values.head?) _)
    cases e with
    | name i =>
      have hname := (Accounts.outside [.assign ⟨i.name, i.span, .assigning values.head?⟩]).wrap
        (.expr (.name i)) (by simp)
      exact (hname.mono (subset_append_left _ (Expr.targetUses values.tail rest))).append hrest
    | _ => exact he.append hrest

theorem TableField.accounts : ∀ fs : List TableField,
    Accounts [] (TableField.outlines fs) (TableField.events fs)
  | [] => .nil
  | .positional value :: rest =>
    ((Expr.accounts value none).wrap _ (by simp)).append (TableField.accounts rest)
  | .named n value :: rest =>
    (((Accounts.nil.idents [n]).append (Expr.accounts value none)).wrap _ (by simp)).append
      (TableField.accounts rest)
  | .keyed _ key value :: rest =>
    (((Expr.accounts key none).append (Expr.accounts value none)).wrap _ (by simp)).append
      (TableField.accounts rest)

theorem FuncBody.accounts (method : Option Ident) : ∀ b : FuncBody,
    Accounts [] [b.outline] (b.events method)
  | .mk lparen params vararg rparen body endPos => by
    have hparams : Accounts [] (params.map Ident.outline) _ :=
      (Accounts.nil.idents params).both fun e he => arise_parameters method params vararg e he
    exact ((hparams.append (Block.accounts body)).scope .function _).wrap _ (by simp)

/-- Every statement accounts for its events, by recursion on the tree. -/
theorem Stmt.accounts : ∀ s : Stmt, Accounts [] [s.outline] s.events
  | .localAssign pos names values => by
    have hnames := (Accounts.nil.idents (names.map LocalName.ident)).append (Expr.accountsOf values)
    rw [map_map] at hnames
    exact (hnames.own_last _).stmt fun ns hs =>
      arise_localNames hs (Subset.refl _) fun _ hmem => hmem
  | .assign targets equal values => by
    have hvalues := (Expr.accountsOf values).weaken (Expr.targetUses (values.map Expr.span) targets)
    rw [← flatten_valueEvents] at hvalues
    have hall := (Expr.accounts_targets targets _).append hvalues
    exact (hall.perm (interleave_perm _ _).symm).stmt fun ns hs =>
      arise_targetUses hs (Subset.refl _) _
  | .call callee method form args => by
    have hcall : Accounts [] _ _ := (((Expr.accounts callee _).idents method.toList).append
      ((Expr.accountsOf args).weaken _)).chain (.call callee method form args) none
    exact (hcall.own_last _).stmt fun ns hs => arise_call hs
  | .doBlock _ body _ => (Block.accounts_scoped _ body).plain
  | .whileLoop _ cond body _ => by
    have hcond : Accounts [] _ _ := Expr.accounts cond none
    exact (hcond.append (Block.accounts_scoped _ body)).plain
  | .repeatLoop _ body _ cond =>
    (((Block.accounts body).append (Expr.accounts cond none)).scope _ _).plain
  | .ifThen _ cond _ body arms otherwise _ => by
    have hcond : Accounts [] _ _ := Expr.accounts cond none
    have hfirst := hcond.append (Block.accounts_scoped .branch body)
    exact ((hfirst.append (ElseIf.accounts arms)).append (ElsePart.accounts otherwise)).plain
  | .numericFor _ var start limit none body _ => by
    have hheader := ((Accounts.nil.idents [var]).append (Expr.accounts start none)).append
      (Expr.accounts limit none)
    exact ((hheader.append .nil).loop _ _ (Block.accounts body)).stmt fun ns hs =>
      arise_loopEvents hs (mem_singleton_self var) (.inr .counter) _
  | .numericFor _ var start limit (some step) body _ => by
    have hheader := ((Accounts.nil.idents [var]).append (Expr.accounts start none)).append
      (Expr.accounts limit none)
    exact ((hheader.append (Expr.accounts step none)).loop _ _ (Block.accounts body)).stmt
      fun ns hs => arise_loopEvents hs (mem_singleton_self var) (.inr .counter) _
  | .genericFor _ names exprs body _ =>
    (((Accounts.nil.idents names).append (Expr.accountsOf exprs)).loop _ _
      (Block.accounts body)).stmt fun ns hs e he => by
        obtain ⟨i, hi, he⟩ := mem_flatMap.mp he
        exact arise_loopEvents hs hi (.inl rfl) _ e he
  | .function _ n body => by
    have hname := ((Accounts.nil.idents (n.names ++ n.method.toList)).wrap (.funcName n)
      (by simp)).append (FuncBody.accounts n.method body)
    exact (hname.own_first [n.event body.span]).stmt fun ns hs e he =>
      mem_singleton.mp he ▸ arise_event hs
  | .localFunction pos n body => by
    have hname := (Accounts.nil.idents [n]).append (FuncBody.accounts none body)
    exact (hname.own_first [_]).stmt fun ns hs e he => mem_singleton.mp he ▸
      .declared rfl (.inr ⟨_, n, hs, .whole (mem_singleton_self n), rfl⟩)
  | .ret _ values => (Expr.accountsOf values).plain
  | .brk _ => Accounts.nil.plain
  | .goto _ target => (Accounts.nil.idents [target]).plain
  | .label _ n _ => (Accounts.nil.idents [n]).plain

theorem Stmt.accountsOf : ∀ ss : List Stmt, Accounts [] (outlines ss) (eventsOf ss)
  | [] => .nil
  | s :: rest => (Stmt.accounts s).append (Stmt.accountsOf rest)

theorem ElseIf.accounts : ∀ arms : List ElseIf,
    Accounts [] (ElseIf.outlines arms) (ElseIf.events arms)
  | [] => .nil
  | .mk _ cond _ body :: rest =>
    (((Expr.accounts cond none).append (Block.accounts_scoped _ body)).wrap _ (by simp)).append
      (ElseIf.accounts rest)

theorem ElsePart.accounts : ∀ p : ElsePart, Accounts [] p.outlines p.events
  | .absent => .nil
  | .present _ body => Block.accounts_scoped _ body

theorem Block.accounts : ∀ b : Block, Accounts [] [b.outline] b.events
  | .mk _ stmts => (Stmt.accountsOf stmts).wrap _ (by simp)

theorem Block.accounts_scoped (kind : ScopeKind) : ∀ b : Block,
    Accounts [] [b.outline] (b.scoped kind)
  | .mk _ stmts => ((Stmt.accountsOf stmts).scope kind _).wrap _ (by simp)

end

/-! ## Assignments -/

theorem Expr.baseUse_subset (u : Usage) : ∀ e : Expr, e.baseUse (some u) ⊆ e.events (some u)
  | .name _ => Subset.refl _
  | .field object _ => Expr.baseUse_subset u object
  | .element object _ _ _ => subset_append_of_subset_left _ (Expr.baseUse_subset u object)
  | .call callee _ _ _ => subset_append_of_subset_left _ (Expr.baseUse_subset u callee)
  | .nil _ | .bool _ _ | .number _ _ | .string _ _ _ | .vararg _ | .function _ _ | .table _ _ _
  | .binary _ _ _ _ | .unary _ _ _ | .paren _ _ _ => nil_subset _

theorem Expr.targetEvents_cons (values : List Span) (e : Expr) (targets : List Expr) :
    ∃ es, Expr.targetEvents values (e :: targets) = es :: Expr.targetEvents values.tail targets ∧
      e.targetUse values.head? ⊆ es := by
  have hbase := e.baseUse_subset (e.usage (some .assign) values.head?)
  cases e with
  | name i => exact ⟨_, rfl, Subset.refl _⟩
  | _ => exact ⟨_, rfl, hbase⟩

theorem Stmt.exists_targetUse_subset (he : e ∈ targets) :
    ∃ value, e.targetUse value ⊆ (assign targets equal values).events := by
  have htargets : ∀ spans : List Span,
      ∃ value, e.targetUse value ⊆ (Expr.targetEvents spans targets).flatten := by
    intro spans
    induction targets generalizing spans with
    | nil => cases he
    | cons target targets ih =>
      obtain ⟨es, hes, hfirst⟩ := Expr.targetEvents_cons spans target targets
      rw [hes, flatten_cons]
      rcases mem_cons.mp he with rfl | he
      · exact ⟨_, subset_append_of_subset_left _ hfirst⟩
      · obtain ⟨value, hvalue⟩ := ih he spans.tail
        exact ⟨value, subset_append_of_subset_right _ hvalue⟩
  obtain ⟨value, hvalue⟩ := htargets (values.map Expr.span)
  refine ⟨value, Subset.trans hvalue ?_⟩
  exact Subset.trans (subset_append_left _ _) (interleave_perm _ _).symm.subset

/-! ## Declarations -/

theorem LocalName.exists_declare_of_mem_zip (hmem : (n, e) ∈ names.zip values) (stmt : Span) :
    ∃ d, .declare d ∈ LocalName.events stmt names values ∧ d.identifier = n.ident.span ∧
      d.isSelf = false := by
  induction names generalizing values with
  | nil => simp at hmem
  | cons first names ih =>
    cases values with
    | nil => simp at hmem
    | cons value values =>
      rw [zip_cons_cons, mem_cons] at hmem
      rcases hmem with heq | hmem
      · cases heq
        exact ⟨_, mem_cons_self, rfl, rfl⟩
      · obtain ⟨d, hd, hident⟩ := ih hmem
        exact ⟨d, mem_cons_of_mem _ (mem_cons_of_mem _ hd), hident⟩

theorem Stmt.exists_declare_of_mem_zip (hmem : (n, e) ∈ names.zip values) :
    ∃ d, .declare d ∈ (localAssign pos names values).events ∧ d.identifier = n.ident.span ∧
      d.isSelf = false := by
  obtain ⟨d, hd, hident⟩ := LocalName.exists_declare_of_mem_zip hmem _
  exact ⟨d, mem_append_right _ hd, hident⟩

theorem Stmt.exists_declare_of_loopVariable (hi : i ∈ s.loopVariables) :
    ∃ d, .declare d ∈ s.events ∧ d.identifier = i.span ∧ d.isSelf = false := by
  have hdeclare : ∀ definition value, ∃ d, .declare d ∈ i.loopEvents definition value ∧
      d.identifier = i.span ∧ d.isSelf = false :=
    fun definition value => ⟨_, mem_cons_self, rfl, rfl⟩
  cases s with
  | numericFor pos var start limit step body endPos =>
    obtain rfl := mem_singleton.mp hi
    obtain ⟨d, hd, hident⟩ := hdeclare ⟨i.pos, start.stop⟩ (some start.span)
    refine ⟨d, ?_, hident⟩
    cases step <;> simp [events, hd]
  | genericFor pos names exprs body endPos =>
    have hi : i ∈ names := hi
    obtain ⟨d, hd, hident⟩ := hdeclare i.span none
    refine ⟨d, ?_, hident⟩
    simp only [events, mem_append, mem_cons, mem_flatMap]
    exact .inl (.inl (.inr (.inr ⟨i, hi, hd⟩)))
  | _ => cases hi

/-! ## Chunks -/

namespace Chunk

variable (c : Chunk)

theorem accounts : Accounts [] [c.outline] c.events := (Block.accounts c.block).scope _ _

/-- Every event of a chunk arises in one of its nodes. -/
theorem arises {e : ScopeEvent} (he : e ∈ c.events) : e.ArisesIn c.nodes := by
  rw [nodes, nodes_eq]
  exact (c.accounts.arise e he).resolve_right not_mem_nil

/-- Every event of a statement is an event of the chunk. -/
theorem events_stmt_subset (hs : .stmt s ∈ c.nodes) : s.events ⊆ c.events := by
  rw [nodes, nodes_eq] at hs
  exact c.accounts.whole s hs

end Chunk

end LuaLint
