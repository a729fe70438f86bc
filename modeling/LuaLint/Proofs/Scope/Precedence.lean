import LuaLint.Scope.Query
import LuaLint.Proofs.Scope.Marks

/-!
# Declarations come before their uses

An occurrence of a name never refers to a declaration further down. Names stand in the order of the
tokens, and what a piece of syntax declares is seen by later names only. Of two statements that a
walk visits, the second one stands behind the first, or inside of it and behind the names that it
declares.

Main statements: `Acts.orderly`, `Parser.start_le_of_binds`, `Parser.ahead_stmts`.
-/

namespace LuaLint

open List

variable {i : Ident} {m : Mention} {ms : List Mention} {r : Relocation} {env env' : Env}
  {os : List Outline} {bs : List Binding} {es fs : List ScopeEvent} {s : Stmt}

/-! ## Names in order -/

/-- Everything that is known is declared before a position. -/
def Env.Until (env : Env) (pos : Nat) : Prop :=
  ∀ name place, env name = some place → place.start < pos

namespace Env.Until

variable {env : Env} {pos : Nat}

theorem declare (h : env.Until pos) (hi : i.pos < pos) (name : Bytes) :
    (env.declare name i.span).Until pos := by
  intro n place hplace
  unfold Env.declare at hplace
  split at hplace
  · cases hplace
    exact hi
  · exact h n place hplace

theorem enter (h : env.Until pos) (kind : ScopeKind) : (env.enter kind).Until pos := by
  cases kind with
  | function =>
    intro n place hplace
    simp only [Env.enter, Env.inFunction] at hplace
    split at hplace
    · cases hplace
    · exact h n place hplace
  | _ => exact h

end Env.Until

/-- A name stands before another one. -/
def Mention.Before (m m' : Mention) : Prop := m.span.start < m'.span.start

theorem Spelled.before_pairwise {ts : List Token} (h : Spelled ms ts) (hts : Ordered ts) :
    ms.Pairwise Mention.Before := by
  have hlt : ts.Pairwise fun t u => t.pos < u.pos := hts.pairwise.imp_of_mem fun ht _ hle =>
    Nat.lt_of_lt_of_le (hts.nonempty _ ht) hle
  replace hlt := hlt.sublist (filter_sublist (p := fun t => t.kind.isMention))
  unfold Spelled at h
  change (Token.names ts).Pairwise _ at hlt
  generalize Token.names ts = us at h hlt
  induction h with
  | nil => exact .nil
  | @cons m t ms us hm hrest ih =>
    obtain ⟨hfirst, hlater⟩ := pairwise_cons.mp hlt
    refine .cons (fun m' hm' => ?_) (ih hlater)
    obtain ⟨t', ht', hat⟩ : ∃ t' ∈ us, m'.At t' := by
      obtain ⟨n, hn, rfl⟩ := mem_iff_getElem.mp hm'
      have hn' : n < us.length := hrest.length_eq ▸ hn
      exact ⟨us[n], getElem_mem hn', hrest.get hn hn'⟩
    rw [Mention.Before, hm.2, hat.2]
    exact hfirst t' ht'

/-! ## Occurrences -/

/-- Occurrences that do not stand before the declarations they refer to. -/
def Following (bs : List Binding) : Prop :=
  ∀ b ∈ bs, ∀ place, b.decl = some place → place.start ≤ b.use.start

/-- Everything that is known is declared before some names. -/
def Env.Precedes (env : Env) (ms : List Mention) : Prop := ∀ m ∈ ms, env.Until m.span.start

/-- The occurrences of a statement are those in an environment with declarations from before it. -/
def Stmt.HostedIn (s : Stmt) (bs : List Binding) : Prop :=
  ∃ env : Env, env.Precedes s.mentions ∧ s.bindings env ⊆ bs

/-- Occurrences follow their declarations, statements are hosted, and what is known in the end is
declared before whatever comes later. -/
structure Orderly (env env' : Env) (ms : List Mention) (os : List Outline) (bs : List Binding) :
    Prop where
  follows : Following bs
  leaves : ∀ pos, env.Until pos → (∀ m ∈ ms, m.span.start < pos) → env'.Until pos
  hosts : ∀ o ∈ os, ∀ s, .stmt s ∈ o.nodes → s.HostedIn bs

namespace Orderly

variable {env env' : Env} {ms : List Mention} {os : List Outline} {bs : List Binding} {i : Ident}
  {role : NameRole}

theorem plain (hbs : Following bs) (hos : ∀ o ∈ os, ∃ n : Node, o = .mk n [] ∧ n.stmt? = none) :
    Orderly env env ms os bs := by
  refine ⟨hbs, fun _ hpos _ => hpos, fun o ho s hs => ?_⟩
  obtain ⟨n, rfl, hn⟩ := hos o ho
  obtain rfl | ⟨o, ho, -⟩ := Outline.mem_nodes_mk.mp hs
  · cases hn
  · cases ho

theorem declared (hbs : Following bs) (name : Bytes)
    (hos : ∀ o ∈ os, ∃ n : Node, o = .mk n [] ∧ n.stmt? = none) :
    Orderly env (env.declare name i.span) [i.mention role] os bs :=
  ⟨hbs, fun _ hpos hlt => hpos.declare (hlt _ (mem_singleton_self _)) name,
    (plain hbs hos : Orderly env env [] os bs).hosts⟩

theorem node {n : Node} {inner : Env} (hn : n.Does env ms os bs) (henv : env.Precedes ms)
    (h : Orderly inner env' ms os bs)
    (hleaves : ∀ pos, env.Until pos → inner.Until pos) : Orderly env env' ms [.mk n os] bs := by
  refine ⟨h.follows, fun pos hpos => h.leaves pos (hleaves pos hpos), ?_⟩
  rw [forall_mem_singleton]
  intro s hs
  rcases Outline.mem_nodes_mk.mp hs with rfl | ⟨o, ho, hs⟩
  · obtain ⟨rfl, rfl, -⟩ := hn s rfl
    exact ⟨env, henv, List.Subset.refl _⟩
  · exact h.hosts o ho s hs

end Orderly

/-- Occurrences refer to what precedes them, by induction on how a piece is made. -/
theorem Acts.orderly (h : Acts r env env' ms os bs es fs) (hms : ms.Pairwise Mention.Before)
    (henv : env.Precedes ms) : Orderly env env' ms os bs := by
  have hnone : Following [] := by simp [Following]
  induction h with
  | nil env => exact .plain hnone (forall_mem_nil _)
  | @join env env' env'' ms ms' msAll os os' osAll bs bs' bsAll _ _ _ _ hleft hright _ hos hbs
      horder _ _ ih ih' =>
    have hfirst := ih (hms.sublist hleft) fun m hm => henv m (hleft.subset hm)
    -- The second part sees what the first one declares, if that stands before it.
    have hnext : env'.Precedes ms' := by
      rcases horder with rfl | rfl
      · exact fun m hm => henv m (hright.subset hm)
      · intro m hm
        refine hfirst.leaves _ (henv m (hright.subset hm)) fun m' hm' => ?_
        exact (pairwise_append.mp hms).2.2 m' hm' m hm
    have hsecond := ih' (hms.sublist hright) hnext
    -- A statement of either part has its occurrences among all of them.
    have hhosts : ∀ {s : Stmt} {part : List Binding}, part ⊆ bs ++ bs' → s.HostedIn part →
        s.HostedIn bsAll := by
      rintro s part hpart ⟨env, hprecedes, hsub⟩
      exact ⟨env, hprecedes, fun b hb => hbs.mem_iff.mp (hpart (hsub hb))⟩
    refine ⟨fun b hb => ?_, fun pos hpos hlt => ?_, fun o ho s hs => ?_⟩
    · exact (mem_append.mp (hbs.mem_iff.mpr hb)).elim (hfirst.follows b) (hsecond.follows b)
    · exact hsecond.leaves pos (hfirst.leaves pos hpos fun m hm => hlt m (hleft.subset hm))
        fun m hm => hlt m (hright.subset hm)
    · rcases mem_append.mp (hos.mem_iff.mpr ho) with ho | ho
      · exact hhosts (subset_append_left _ _) (hfirst.hosts o ho s hs)
      · exact hhosts (subset_append_right _ _) (hsecond.hosts o ho s hs)
  | more ms' is _ _ ih =>
    obtain ⟨hleft, -, -⟩ := pairwise_append.mp hms
    have hfirst := ih hleft fun m hm => henv m (mem_append_left _ hm)
    refine ⟨hfirst.follows, fun pos hpos hlt => ?_, forall_mem_append.mpr ⟨hfirst.hosts, ?_⟩⟩
    · exact hfirst.leaves pos hpos fun m hm => hlt m (mem_append_left _ hm)
    · have hplain : Orderly .empty .empty [] (is.map Ident.outline) _ :=
        .plain hfirst.follows fun o ho => by
          obtain ⟨i, -, rfl⟩ := mem_map.mp ho
          exact ⟨_, rfl, rfl⟩
      exact hplain.hosts
  | node n hn _ ih => exact .node hn henv (ih hms henv) fun _ hpos => hpos
  | @lookup env n _ _ _ i role _ hn _ _ =>
    refine .plain (forall_mem_singleton.mpr fun place hplace => ?_)
      (forall_mem_singleton.mpr ⟨n, rfl, ?_⟩)
    · exact Nat.le_of_lt (henv _ (mem_singleton_self _) i.name place hplace)
    · rcases hn with rfl | ⟨rfl, -⟩ <;> rfl
  -- A name that takes a value where it is declared refers to itself.
  | @own _ _ _ _ _ _ _ i role _ hos _ =>
    refine .declared (forall_mem_singleton.mpr fun place hplace => ?_) _ ?_
    · cases hplace
      exact Nat.le_refl _
    · rcases hos with rfl | ⟨-, rfl⟩
      · exact forall_mem_singleton.mpr ⟨_, rfl, rfl⟩
      · exact forall_mem_nil _
  | declare role hos _ _ _ =>
    refine .declared hnone _ ?_
    rcases hos with rfl | rfl
    · exact forall_mem_singleton.mpr ⟨_, rfl, rfl⟩
    · exact forall_mem_nil _
  | self m => exact .declared hnone _ (forall_mem_nil _)
  | calls _ _ _ ih => exact ih hms henv
  | @scope env inner env' ms os bs _ _ n kind _ _ _ hn hinner _ ih =>
    -- What is declared inside of a scope is not seen behind it.
    subst hinner
    have hbody := ih hms fun m hm => (henv m hm).enter kind
    have hnode := hbody.node hn henv fun _ hpos => hpos.enter kind
    exact ⟨hnode.follows, fun _ hpos _ => hpos, hnode.hosts⟩

/-! ## Statements -/

def Outline.stmts (o : Outline) : List Stmt := o.nodes.filterMap Node.stmt?

theorem Outline.mem_stmts {o : Outline} : s ∈ o.stmts ↔ .stmt s ∈ o.nodes := by
  rw [stmts, mem_filterMap]
  constructor
  · rintro ⟨node, hnode, hs⟩
    cases node with
    | stmt s' => cases hs; exact hnode
    | _ => cases hs
  · exact fun hs => ⟨.stmt s, hs, rfl⟩

theorem Outline.stmts_mk (n : Node) (os : List Outline) :
    (Outline.mk n os).stmts = n.stmt?.toList ++ os.flatMap stmts := by
  have hchildren : (nodesOf os).filterMap Node.stmt? = os.flatMap stmts := by
    induction os with
    | nil => rfl
    | cons o os ih =>
      obtain ⟨node, children⟩ := o
      rw [← singleton_append, nodesOf_append, filterMap_append, ih, ← nodes_eq]
      rfl
  rw [stmts, nodes_eq, nodesOf_cons, nodesOf_nil, append_nil, filterMap_cons, hchildren]
  cases n.stmt? <;> rfl

def Chunk.stmts (c : Chunk) : List Stmt := c.nodes.filterMap Node.stmt?

theorem Chunk.mem_stmts {c : Chunk} : s ∈ c.stmts ↔ .stmt s ∈ c.nodes := Outline.mem_stmts

/-- A statement ends before another one begins, or that one lies inside of it, behind the names that
it declares. -/
def Stmt.Ahead (s s' : Stmt) : Prop :=
  s.span.stop ≤ s'.span.start ∨
    s'.mentions ⊆ s.mentions ∧ ∀ i ∈ s.localNames, i.pos ≤ s'.span.start

/-- The statements of an outline come one after the other, have their names among some others, and
declare theirs one after the other. -/
structure Outline.Walks (ms : List Mention) (o : Outline) : Prop where
  mentions : ∀ s ∈ o.stmts, s.mentions ⊆ ms
  names : o.Placed → ∀ s ∈ o.stmts, s.localNames.Pairwise fun i i' => i.pos < i'.pos
  ahead : o.Placed → o.stmts.Pairwise Stmt.Ahead

namespace Outline

variable {ms ms' : List Mention} {o : Outline} {os : List Outline} {n : Node}

theorem Placed.bounds_stmt (h : o.Placed) (hs : s ∈ o.stmts) :
    o.node.span.start ≤ s.span.start ∧ s.span.stop ≤ o.node.span.stop := by
  obtain ⟨o', ho', hnode⟩ := mem_nodes_iff.mp (mem_stmts.mp hs)
  have hlt := (h.held ho').lt (hnode ▸ Node.not_isEmptyBlock rfl)
  rw [hnode] at hlt
  exact h.bounds _ (mem_stmts.mp hs) hlt

theorem Walks.mono (h : o.Walks ms) (hms : ms ⊆ ms') : o.Walks ms' :=
  ⟨fun s hs => List.Subset.trans (h.mentions s hs) hms, h.names, h.ahead⟩

theorem Walks.leaf (hn : n.stmt? = none) : (Outline.mk n []).Walks ms := by
  have hstmts : (Outline.mk n []).stmts = [] := by
    rw [stmts_mk, hn]
    rfl
  constructor <;> simp [hstmts]

theorem Walks.node (hn : n.Does env ms os bs) (hos : ∀ o ∈ os, o.Walks ms) :
    (Outline.mk n os).Walks ms := by
  have hmentions : ∀ s ∈ os.flatMap stmts, s.mentions ⊆ ms := fun s hs =>
    let ⟨o, ho, hs⟩ := mem_flatMap.mp hs
    (hos o ho).mentions s hs
  have hnames : (Outline.mk n os).Placed → ∀ s ∈ os.flatMap stmts,
      s.localNames.Pairwise fun i i' => i.pos < i'.pos := by
    rintro ⟨-, -, hplaced, -, -⟩ s hs
    obtain ⟨o, ho, hs⟩ := mem_flatMap.mp hs
    exact (hos o ho).names (hplaced o ho) s hs
  -- The children of a node stand one behind the other, and so do the statements in them.
  have hahead : (Outline.mk n os).Placed → (os.flatMap stmts).Pairwise Stmt.Ahead := by
    rintro ⟨-, -, hplaced, -, hordered⟩
    refine pairwise_flatMap.mpr ⟨fun o ho => (hos o ho).ahead (hplaced o ho), ?_⟩
    refine hordered.imp_of_mem fun ho ho' hle s hs s' hs' => .inl ?_
    have hbounds := (hplaced _ ho).bounds_stmt hs
    have hbounds' := (hplaced _ ho').bounds_stmt hs'
    omega
  cases hstmt : n.stmt? with
  | none =>
    have hstmts : (Outline.mk n os).stmts = os.flatMap stmts := by
      rw [stmts_mk, hstmt]
      rfl
    exact ⟨hstmts ▸ hmentions, hstmts ▸ hnames, hstmts ▸ hahead⟩
  | some s =>
    obtain rfl : n = .stmt s := by
      cases n <;> cases hstmt
      rfl
    have hstmts : (Outline.mk (.stmt s) os).stmts = s :: os.flatMap stmts := stmts_mk _ _
    obtain ⟨rfl, -, rest, rfl⟩ := hn s rfl
    refine ⟨?_, fun hplaced => ?_, fun hplaced => ?_⟩ <;> rw [hstmts]
    · exact forall_mem_cons.mpr ⟨List.Subset.refl _, hmentions⟩
    · refine forall_mem_cons.mpr ⟨?_, hnames hplaced⟩
      cases hplaced with
      | mk _ _ hplaced _ hordered =>
        refine (pairwise_map.mp (pairwise_append.mp hordered).1).imp_of_mem fun hi _ hle => ?_
        exact Nat.lt_of_lt_of_le ((hplaced _ (mem_append_left _ (mem_map_of_mem hi))).lt
          (Node.not_isEmptyBlock rfl)) hle
    · refine .cons (fun s' hs' => .inr ⟨hmentions s' hs', fun i hi => ?_⟩) (hahead hplaced)
      obtain ⟨o, ho, hs'⟩ := mem_flatMap.mp hs'
      cases hplaced with
      | mk _ _ hplaced _ hordered =>
        rcases mem_append.mp ho with hname | hrest
        · obtain ⟨j, -, rfl⟩ := mem_map.mp hname
          cases hs'
        · have hi := mem_map_of_mem (f := Ident.outline) hi
          have hstop := (pairwise_append.mp hordered).2.2 _ hi o hrest
          have hle := (hplaced _ (mem_append_left _ hi)).le
          exact Nat.le_trans hle (Nat.le_trans hstop ((hplaced o ho).bounds_stmt hs').1)

end Outline

/-- A walk meets statements in the order of their names. -/
theorem Acts.walks (h : Acts r env env' ms os bs es fs) : ∀ o ∈ os, o.Walks ms := by
  induction h with
  | nil env => exact forall_mem_nil _
  | join hleft hright _ hos _ _ _ _ ih ih' =>
    intro o ho
    exact (mem_append.mp (hos.mem_iff.mpr ho)).elim
      (fun ho => (ih o ho).mono hleft.subset) fun ho => (ih' o ho).mono hright.subset
  | more ms' is _ _ ih =>
    refine forall_mem_append.mpr ⟨fun o ho => (ih o ho).mono (subset_append_left _ _), ?_⟩
    intro o ho
    obtain ⟨i, -, rfl⟩ := mem_map.mp ho
    exact .leaf rfl
  | node n hn _ ih => exact forall_mem_singleton.mpr (.node hn ih)
  | lookup _ _ hn _ _ =>
    refine forall_mem_singleton.mpr (.leaf ?_)
    rcases hn with rfl | ⟨rfl, -⟩ <;> rfl
  | own _ _ hos _ =>
    rcases hos with rfl | ⟨-, rfl⟩
    · exact forall_mem_singleton.mpr (.leaf rfl)
    · exact forall_mem_nil _
  | declare role hos _ _ _ =>
    rcases hos with rfl | rfl
    · exact forall_mem_singleton.mpr (.leaf rfl)
    · exact forall_mem_nil _
  | self m => exact forall_mem_nil _
  | calls _ _ _ ih => exact ih
  | scope _ _ hn _ _ ih => exact forall_mem_singleton.mpr (.node hn ih)

/-! ## Chunks -/

namespace Parser

variable {source : Bytes} {chunk : Chunk}

variable (h : parse source = .ok chunk)
include h

theorem orderly : ∃ env, Orderly .empty env chunk.mentions [chunk.outline] chunk.bindings :=
  ⟨_, (Block.acts (r := .still) .empty chunk.block).orderly
    ((spelled_of_parse h).before_pairwise (nested_of_parse h).ordered) fun _ _ _ _ hnone => by
      cases hnone⟩

/-- A declaration does not stand behind its uses. -/
theorem start_le_of_binds {use place : Span} (hbinds : chunk.Binds use (some place)) :
    place.start ≤ use.start := by
  obtain ⟨env, horderly⟩ := orderly h
  exact horderly.follows _ hbinds place rfl

/-- Statements are visited in the order in which they begin. -/
theorem ahead_stmts : chunk.stmts.Pairwise Stmt.Ahead :=
  ((Block.acts (r := .still) .empty chunk.block).walks _ (mem_singleton_self _)).ahead
    (nested_of_parse h).placed

theorem pairwise_localNames (hs : s ∈ chunk.stmts) :
    s.localNames.Pairwise fun i i' => i.pos < i'.pos :=
  ((Block.acts (r := .still) .empty chunk.block).walks _ (mem_singleton_self _)).names
    (nested_of_parse h).placed s hs

theorem start_lt_of_localName (hs : s ∈ chunk.stmts) (hi : i ∈ s.localNames) :
    s.span.start < i.pos := by
  obtain ⟨run, hrun, hread⟩ := sited_nodes h _ (Chunk.mem_stmts.mp hs)
  exact (hread.localName_pos ((nested_of_parse h).ordered.narrow hrun) i hi).2

theorem start_lt_of_mention (hs : s ∈ chunk.stmts) (hm : m ∈ s.mentions) :
    m.span.start < s.span.stop := by
  obtain ⟨run, hrun, hread⟩ := sited_nodes h _ (Chunk.mem_stmts.mp hs)
  have hordered := (nested_of_parse h).ordered.narrow hrun
  have hspelled : Spelled s.mentions run := hread.spelled .value
  obtain ⟨t, hmem⟩ := hspelled.exists_token hm
  rw [(hspelled.at_of_mem_zip hmem).2]
  have ht : t ∈ run := mem_of_mem_filter (of_mem_zip hmem).2
  exact Nat.lt_of_lt_of_le (hordered.nonempty t ht)
    (hordered.bounds hread.over_stmt.1 hread.over_stmt.2 t ht).2

/-- The first definition of a variable whose value is known begins no later than any reference to
the variable. -/
theorem definition_le_reference {ref : Reference} (href : ref ∈ chunk.resolve.references)
    {v : Variable} (hv : chunk.resolve.variableOf? ref = some v) (hvalue : v.value ≠ .unknown)
    {definition : Span} (hdef : v.definitions.head? = some definition) :
    definition.start ≤ ref.span.start := by
  obtain ⟨id, hid, hvar⟩ := Option.bind_eq_some_iff.mp hv
  -- A global may be written after it is read, but nothing is known of its value.
  have hlocal : v.hoisted = false := by
    rw [Bool.eq_false_iff]
    exact fun hhoisted =>
      hvalue ((chunk.records_resolve.vars v (Array.mem_of_getElem? hvar)).unknown hhoisted)
  have hdecl : chunk.resolve.declarationOf? ref.resolved = some v.identifier := by
    simp [ScopeGraph.declarationOf?, ScopeGraph.known?, hid, hvar, Variable.entry,
      Variable.declaration?, hlocal]
  have hbinds := (binds_iff h href (some v.identifier)).mpr hdecl.symm
  obtain ⟨-, -, first, hfirst, hle⟩ := runs_variable h (Array.mem_of_getElem? hvar)
  cases hdef.symm.trans hfirst
  exact Nat.le_trans hle (start_le_of_binds h hbinds)

end Parser

end LuaLint
