import LuaLint.Proofs.Scope.Precedence

/-!
# Globals and the writes that create them

A write to a name creates a global unless a variable of the name is visible where the write stands.
The global belongs to the scope of the write. Earlier reads of the name in that scope or inside of
it are made to refer to it, and later ones find it when they are looked up.

Main statements: `Resolver.Linked.lookup?_eq_none_iff`, `Parser.not_inside_of_unresolved`,
`Parser.hoisting`.
-/

namespace LuaLint

open List

variable {ids : List Nat} {v : Variable} {e : ScopeEvent} {i : Ident} {s : Stmt} {u : Use}
  {source : Bytes} {chunk : Chunk} {ref : Reference} {before after : List ScopeEvent} {k : Nat}

/-! ## Scopes over time -/

namespace ScopeGraph

variable {g g' : ScopeGraph} {id outer : Nat}

theorem Inside.shrinks (h : g'.Inside id outer) (hg : g.Grows g') (hroot : g'.Rooted)
    (hid : id < g.scopes.size) : g.Inside id outer := by
  induction h with
  | self _ => exact .self (Array.getElem?_eq_getElem hid)
  | @parent id parent outer s' hs' hparent _ ih =>
    have hs : g.scopes[id]? = some g.scopes[id] := Array.getElem?_eq_getElem hid
    have hsame := hg.parent id _ hs
    rw [hs', Option.map_some, Option.some.injEq] at hsame
    -- The parent comes before its child, and so was there already.
    rcases hroot id s' hs' with ⟨-, hnone⟩ | ⟨p, hlt, hp⟩
    · rw [hnone] at hparent
      cases hparent
    · obtain rfl : p = parent := Option.some.inj (hp.symm.trans hparent)
      exact .parent hs (hsame.symm.trans hparent) (ih (Nat.lt_trans hlt hid))

theorem Chain.mem_of_inside (h : g.Chain (id :: ids)) (hin : g.Inside id outer) :
    outer ∈ id :: ids := by
  induction hin generalizing ids with
  | self _ => exact mem_cons_self
  | @parent id parent outer s hs hparent _ ih =>
    obtain ⟨⟨s', hs', hhead⟩, htail⟩ := h
    obtain rfl : s = s' := Option.some.inj (hs.symm.trans hs')
    rw [hparent] at hhead
    obtain ⟨rest, rfl⟩ : ∃ rest, ids = parent :: rest := head?_eq_some_iff.mp hhead.symm
    exact mem_cons_of_mem _ (ih htail)

end ScopeGraph

namespace Resolver

theorem grows_run (r : Resolver) (es : List ScopeEvent) : r.graph.Grows (r.run es).graph where
  parent id s hs := by
    obtain ⟨s', hs', hparent, -⟩ := exists_scope_run r es hs
    rw [hs', Option.map_some, hparent]
  var v var hvar := by
    have hv : v < r.bareVars.length := r.length_bareVars ▸ (Array.getElem?_eq_some_iff.mp hvar).1
    have hview := view_run_of_lt bareVars_step r es hv
    simp only [bareVars, getElem?_map, Array.getElem?_toList, hvar, Option.map_some] at hview
    obtain ⟨var', hvar', heq⟩ := Option.map_eq_some_iff.mp hview
    simp only [Variable.bare, Variable.mk.injEq] at heq
    rw [hvar', Option.map_some, heq.1, heq.2.1]

end Resolver

/-! ## Visible variables -/

/-- A variable of the name is visible in a scope: it belongs to the scope or to one around it. -/
def ScopeGraph.Shows (g : ScopeGraph) (scope : Nat) (name : Bytes) : Prop :=
  ∃ v ∈ g.vars, v.name = name ∧ g.within scope v.scope = true

/-- The search for a name ends at the first variable of the name, and only `...` is held up. -/
theorem ScopeGraph.Linked.lookup?_ne_none {g : ScopeGraph} (h : g.Linked) (hchain : g.Chain ids)
    (hv : v ∈ g.vars) (hname : v.name ≠ varargName) (hscope : v.scope ∈ ids) :
    g.lookup? v.name ids ≠ none := by
  obtain ⟨k, hk⟩ := Array.mem_iff_getElem?.mp hv
  induction ids with
  | nil => cases hscope
  | cons id ids ih =>
    obtain ⟨⟨s, hs, -⟩, htail⟩ := hchain
    have hblocked : s.kind.blocked.contains v.name = false := by
      cases s.kind <;> simp [ScopeKind.blocked, hname]
    simp only [lookup?, hs]
    cases hdeclared : g.declared? v.name s.vars with
    | some k' => simp
    | none =>
      simp only [hblocked, Bool.false_eq_true, if_false]
      refine ih htail ((mem_cons.mp hscope).resolve_left fun hid => ?_)
      -- The scope of the variable lists it, so that the search would end there.
      have hlisted : k ∈ s.vars.reverse := by
        rw [mem_reverse, h.declares id s hs]
        exact mem_numbers.mpr ⟨v, hk, beq_iff_eq.mpr hid⟩
      have hmiss := find?_eq_none.mp hdeclared k hlisted
      simp [hk] at hmiss

namespace Resolver

variable {r : Resolver} {name : Bytes}

/-- A look-up fails just when no variable of the name is shown. -/
theorem Linked.lookup?_eq_none_iff (h : r.Linked) (hopen : r.scopes ≠ [])
    (hname : name ≠ varargName) :
    r.lookup? name = none ↔ ¬ r.graph.Shows r.current name := by
  have hchain := h.chain
  rw [Linked.scopes_eq_cons hopen] at hchain
  constructor
  · rintro hnone ⟨v, hv, rfl, hwithin⟩
    have hmem := hchain.mem_of_inside (ScopeGraph.inside_of_within hwithin)
    rw [lookup?, Linked.scopes_eq_cons hopen] at hnone
    exact h.graph.lookup?_ne_none hchain hv hname hmem hnone
  · intro hhidden
    by_contra hsome
    obtain ⟨k, hk⟩ := Option.ne_none_iff_exists'.mp hsome
    obtain ⟨v, hv, hvname, hinside⟩ := h.sees_of_lookup? hopen hk
    exact hhidden ⟨v, Array.mem_of_getElem? hv, hvname, hinside.within h.graph.rooted⟩

end Resolver

/-! ## Writes to names -/

/-- The names that a statement assigns to: targets that are names, and the name of a function that
is neither a field nor a method. -/
def Stmt.bareWrites : Stmt → List Ident
  | .assign targets _ _ => targets.filterMap Expr.asName?
  | .function _ ⟨base, [], none⟩ _ => [base]
  | _ => []

def Chunk.bareWrites (c : Chunk) : List Ident := c.stmts.flatMap Stmt.bareWrites

theorem Expr.asName?_eq_some {e : Expr} : e.asName? = some i ↔ e = .name i := by
  cases e <;> simp [asName?]

namespace Stmt

variable {i : Ident}

theorem mem_bareWrites_assign {targets values : List Expr} {equal : Nat} :
    i ∈ (Stmt.assign targets equal values).bareWrites ↔ .name i ∈ targets := by
  simp [bareWrites, mem_filterMap, Expr.asName?_eq_some]

theorem cases_of_mem_bareWrites (hi : i ∈ s.bareWrites) :
    (∃ targets equal values, s = .assign targets equal values ∧ .name i ∈ targets) ∨
      ∃ pos body, s = .function pos ⟨i, [], none⟩ body := by
  cases s with
  | assign targets equal values => exact .inl ⟨_, _, _, rfl, mem_bareWrites_assign.mp hi⟩
  | function pos n body =>
    obtain ⟨base, fields, method⟩ := n
    cases fields with
    | nil =>
      cases method with
      | none =>
        obtain rfl := mem_singleton.mp hi
        exact .inr ⟨_, _, rfl⟩
      | some m => cases hi
    | cons f fields => cases hi
  | _ => cases hi

theorem exists_assign_of_mem_bareWrites (hi : i ∈ s.bareWrites) :
    ∃ u, .assign u ∈ s.events ∧ u.name = i.name ∧ u.span = i.span := by
  rcases cases_of_mem_bareWrites hi with ⟨targets, equal, values, rfl, hmem⟩ | ⟨pos, body, rfl⟩
  · obtain ⟨value, hvalue⟩ := exists_targetUse_subset hmem
    exact ⟨_, hvalue (mem_singleton_self _), rfl, rfl⟩
  · exact ⟨_, mem_cons_self, rfl, rfl⟩

end Stmt

namespace Chunk

variable {c : Chunk}

theorem exists_assign_of_mem_bareWrites (hi : i ∈ c.bareWrites) :
    ∃ u, .assign u ∈ c.events ∧ u.name = i.name ∧ u.span = i.span := by
  obtain ⟨s, hs, hi⟩ := mem_flatMap.mp hi
  obtain ⟨u, hu, hplace⟩ := Stmt.exists_assign_of_mem_bareWrites hi
  exact ⟨u, c.events_stmt_subset (mem_stmts.mp hs) hu, hplace⟩

theorem exists_bareWrite_of_assign (hu : .assign u ∈ c.events) :
    ∃ i ∈ c.bareWrites, u.name = i.name ∧ u.span = i.span := by
  cases c.arises hu with
  | @target targets values equal i value hs hi =>
    refine ⟨i, mem_flatMap.mpr ⟨_, mem_stmts.mpr hs, ?_⟩, rfl, rfl⟩
    exact Stmt.mem_bareWrites_assign.mpr hi
  | @functionName pos i body hs =>
    refine ⟨i, mem_flatMap.mpr ⟨_, mem_stmts.mpr hs, ?_⟩, rfl, rfl⟩
    exact mem_singleton_self i

end Chunk

theorem Parser.name_of_bareWrite (h : parse source = .ok chunk) (hi : i ∈ chunk.bareWrites) :
    IsName i.name := by
  have htoken : ∃ t ∈ Lexer.codeTokens source, t.kind = .name ∧ i = t.ident := by
    obtain ⟨s, hs, hi⟩ := mem_flatMap.mp hi
    obtain ⟨run, hrun, hread⟩ := sited_nodes h _ (Chunk.mem_stmts.mp hs)
    have hread : Reads (.stmt s) run := hread
    rcases Stmt.cases_of_mem_bareWrites hi with ⟨targets, equal, values, rfl, hmem⟩ |
      ⟨pos, body, rfl⟩
    · cases hread with
      | @assign _ _ a ts us _ htargets _ _ _ =>
        obtain ⟨part, hpart, hname⟩ := htargets.fits.1.grounded.sited_exprs _ hmem
        cases hname with
        | @name t ht =>
          have ht' : t ∈ ts := hpart.subset (mem_singleton_self t)
          exact ⟨t, hrun.subset (by simp [ht']), ht, rfl⟩
    · cases hread with
      | functionStmt _ hname _ =>
        cases hname with
        | @plain t _ _ ht _ => exact ⟨t, hrun.subset (by simp), ht, rfl⟩
  obtain ⟨t, ht, hkind, rfl⟩ := htoken
  exact (Lexer.lawful_of_mem ht).name hkind

theorem Parser.name_ne_of_assign (h : parse source = .ok chunk) (hu : .assign u ∈ chunk.events) :
    u.name ≠ varargName := by
  obtain ⟨i, hi, hname, -⟩ := Chunk.exists_bareWrite_of_assign hu
  exact hname ▸ (name_of_bareWrite h hi).ne_varargName

/-! ## Reads of the name of a global -/

namespace Resolver

/-- Reads that a global can claim are left with a variable. -/
theorem resolved_ne_none_of_claim {r : Resolver} {name : Bytes}
    (href : ref ∈ (r.claim name).graph.references) (hread : ref.read = true)
    (hname : ref.name = name) (hwithin : r.graph.within ref.scope r.current = true) :
    ref.resolved ≠ none := by
  obtain ⟨old, -, hold⟩ := Array.mem_map.mp href
  by_cases hmissing : unclaimed r.graph name r.current old = true
  · rw [← hold, if_pos hmissing]
    simp
  · rw [if_neg hmissing] at hold
    subst hold
    intro hnone
    exact hmissing (by simp [unclaimed, hread, hname, hnone, hwithin])

end Resolver

namespace Resolver

variable {r : Resolver} {u : Use}

theorem step_assign_of_lookup? (hlookup : r.lookup? u.name = none) : r.step (.assign u) =
    ((r.use u).declare ⟨u.name, u.span, u.span, false, none, .unknown⟩ true).claim u.name := by
  simp only [step, assign, hlookup]

theorem exists_claimed_write (h : r.Linked) (hopen : r.scopes ≠ [])
    (hlookup : r.lookup? u.name = none) (hread : u.usage.read = true) :
    ∃ ref, (r.step (.assign u)).graph.references[r.graph.references.size]? = some ref ∧
      ref.resolved = some r.graph.vars.size := by
  rw [step_assign_of_lookup? hlookup]
  have hdeclared :=
    (h.use hopen u).declare hopen ⟨u.name, u.span, u.span, false, none, .unknown⟩ true
  have hlast : ((r.use u).declare ⟨u.name, u.span, u.span, false, none, .unknown⟩
      true).graph.vars.size - 1 = r.graph.vars.size := by
    rw [← (alike_use r u).vars]
    simp [declare]
  -- The use has made the last reference, which the new global then claims.
  have hmade : (r.use u).graph.references[r.graph.references.size]? =
      some ⟨u.name, u.span, r.current, u.usage.read, u.usage.write, u.usage.value,
        r.lookup? u.name, u.usage.indexing, none⟩ :=
    Array.getElem?_push_size
  have hself := ScopeGraph.Inside.self (Array.getElem?_eq_getElem (hdeclared.current_lt hopen))
  have hwithin := hself.within hdeclared.graph.rooted
  generalize hd : (r.use u).declare ⟨u.name, u.span, u.span, false, none, .unknown⟩ true = d at *
  have hrefs : d.graph.references = (r.use u).graph.references := hd ▸ rfl
  have hcurrent : d.current = r.current := hd ▸ rfl
  rw [hcurrent] at hwithin
  simp only [claim, hcurrent, Array.getElem?_map, hrefs, hmade, Option.map_some]
  refine ⟨_, rfl, ?_⟩
  rw [if_pos (by simp [unclaimed, hread, hlookup, hwithin]), hlast]

end Resolver

namespace Chunk

open Resolver in
theorem resolve_eq_run {c : Chunk} (hsplit : c.events = before ++ e :: after) :
    c.resolve = (((start.run before).step e).run after).graph := by
  rw [resolve, hsplit, run_append]
  rfl

variable {c : Chunk} {before after : List ScopeEvent} {u : Use} {ref : Reference} {i : Nat}

/-- A write that creates a global leaves no earlier read of the name without a variable that stands
in its scope or inside of it. -/
theorem not_inside_of_earlier (hsplit : c.events = before ++ .assign u :: after)
    (hlookup : (Resolver.start.run before).lookup? u.name = none)
    (href : c.resolve.references[i]? = some ref)
    (hi : i < ((Resolver.start.run before).step (.assign u)).graph.references.size)
    (hread : ref.read = true) (hnone : ref.resolved = none) (hname : ref.name = u.name) :
    ¬ c.resolve.Inside ref.scope (Resolver.start.run before).current := by
  intro hinside
  have hroot := c.linked_resolve.rooted
  have hlinked : ((Resolver.start.run before).step (.assign u)).Linked := by
    have hprefix : c.events = (before ++ [.assign u]) ++ after := by simpa using hsplit
    have hrun := c.linked_run hprefix
    rwa [Resolver.run_append] at hrun
  rw [resolve_eq_run hsplit] at href hinside hroot
  generalize hr : Resolver.start.run before = r at *
  -- The read is there already, and it has no variable then either.
  obtain ⟨old, hold⟩ : ∃ old, (r.step (.assign u)).graph.references[i]? = some old :=
    ⟨_, Array.getElem?_eq_getElem hi⟩
  obtain ⟨ref', href', hlater⟩ := Resolver.Retains.run (r.step (.assign u)) after i old hold
  obtain rfl : ref = ref' := Option.some.inj (href.symm.trans href')
  have hmem := Array.mem_of_getElem? hold
  have hbare := hlater.bare
  simp only [Reference.bare, Reference.mk.injEq] at hbare
  have hunresolved : old.resolved = none := by
    by_contra hsome
    exact hsome ((hlater.resolved (.inl hsome)).symm.trans hnone)
  have hthen : (r.step (.assign u)).graph.Inside old.scope r.current := by
    rw [← hbare.2.2.1]
    exact hinside.shrinks (Resolver.grows_run _ after) hroot
      (hbare.2.2.1 ▸ hlinked.graph.placed old hmem)
  -- The write claims every such read.
  rw [Resolver.step_assign_of_lookup? hlookup] at hmem hthen hlinked
  refine Resolver.resolved_ne_none_of_claim hmem ?_ ?_ ?_ hunresolved
  · rw [← hbare.2.2.2.1, hread]
  · rw [← hbare.1, hname]
  · have hplaced := hlinked.graph.placed old hmem
    have hroot := hlinked.graph.rooted
    exact (hthen.shrinks (Resolver.Linked.revises_claim _ _).grows hroot hplaced).within hroot

/-- A read that comes after a variable of its name is looked up, and so finds a variable if it
stands in the scope of that one or inside of it. -/
theorem not_inside_of_later (hsplit : c.events = before ++ e :: after) (hu : e.use? = some u)
    (href : c.resolve.references[(Resolver.start.run before).graph.references.size]? = some ref)
    (hnone : ref.resolved = none) (hname : ref.name ≠ varargName)
    (hv : v ∈ (Resolver.start.run before).graph.vars) (hvname : v.name = ref.name) :
    ¬ c.resolve.Inside ref.scope v.scope := by
  intro hinside
  obtain ⟨ref', href', hnew, hresolved⟩ := Resolver.exists_reference_of_split hsplit hu
  obtain rfl : ref = ref' := Option.some.inj (href.symm.trans href')
  rw [Resolver.newReference?, hu, Option.map_some] at hnew
  simp only [Reference.bare, Option.some.injEq, Reference.mk.injEq] at hnew
  have hopen := scopes_ne_nil_of_use? hsplit hu
  have hlinked := c.linked_run hsplit
  have hroot := c.linked_resolve.rooted
  have hgrows := Resolver.grows_run (Resolver.start.run before) (e :: after)
  rw [resolve_eq_run hsplit, ← hnew.2.2.1] at hinside
  rw [resolve_eq_run hsplit] at hroot
  have hthen := hinside.shrinks hgrows hroot (hlinked.current_lt hopen)
  have hfound : (Resolver.start.run before).lookup? u.name ≠ none := by
    rw [Ne, hlinked.lookup?_eq_none_iff hopen (hnew.1 ▸ hname), not_not]
    exact ⟨v, hv, hvname.trans hnew.1.symm, hthen.within hlinked.graph.rooted⟩
  exact hfound ((hresolved (.inl hfound)).symm.trans hnone)

end Chunk

/-- No read of the name of a global is without a variable in the scope of the global or inside of
it. -/
theorem Parser.not_inside_of_unresolved (h : parse source = .ok chunk)
    (href : ref ∈ chunk.resolve.references) (hread : ref.read = true)
    (hnone : ref.resolved = none) (hv : v ∈ chunk.resolve.vars) (hhoisted : v.hoisted = true)
    (hname : v.name = ref.name) : ¬ chunk.resolve.Inside ref.scope v.scope := by
  obtain ⟨i, hi⟩ := Array.mem_iff_getElem?.mp href
  obtain ⟨k, hk⟩ := Array.mem_iff_getElem?.mp hv
  obtain ⟨before, e, after, hsplit, -, hnew⟩ := Resolver.exists_split_of_variable hk
  obtain ⟨u, rfl, hlookup, hvname, hvscope, -⟩ := Resolver.assign_of_newVariable? hnew hhoisted
  obtain ⟨before', e', after', hsplit', hsize', hnew'⟩ := Resolver.exists_split_of_reference hi
  have hmade := Resolver.references_size_step hnew'
  by_cases hlt : i < ((Resolver.start.run before).step (.assign u)).graph.references.size
  · rw [hvscope]
    exact Chunk.not_inside_of_earlier hsplit hlookup hi hlt hread hnone (hname.symm.trans hvname)
  -- The read comes after the write, so that the global was there to be found.
  have hbetween : ∃ between, before' = before ++ .assign u :: between := by
    rcases splits_cases hsplit hsplit' with ⟨rfl, rfl⟩ | hbetween | ⟨between, rfl⟩
    · omega
    · exact hbetween
    · have hrun : (Resolver.start.run (before' ++ e' :: between)).step (.assign u) =
          ((Resolver.start.run before').step e').run (between ++ [.assign u]) := by
        rw [Resolver.run_append, Resolver.run_append]
        rfl
      have hgrown := Resolver.references_size_run ((Resolver.start.run before').step e')
        (between ++ [.assign u])
      rw [hrun] at hlt
      omega
  obtain ⟨between, hbetween⟩ := hbetween
  obtain ⟨w, hw, hbare⟩ := Resolver.exists_variable_of_split hbetween hnew
  simp only [Variable.bare, Variable.mk.injEq] at hbare
  obtain ⟨u', hu', -⟩ := Option.map_eq_some_iff.mp hnew'
  have hvararg : u.name ≠ varargName := name_ne_of_assign h (by simp [hsplit])
  rw [← hbare.2.1]
  exact Chunk.not_inside_of_later hsplit' hu' (hsize' ▸ hi) hnone (hname ▸ hvname ▸ hvararg)
    (Array.mem_of_getElem? hw) (hbare.1.trans hname)

/-! ## Globals -/

namespace Parser

variable {source : Bytes} {chunk : Chunk}

theorem exists_assign_of_hoisted (hv : chunk.resolve.vars[k]? = some v)
    (hhoisted : v.hoisted = true) : ∃ before u after, chunk.events = before ++ .assign u :: after ∧
      (Resolver.start.run before).graph.vars.size = k ∧
      (Resolver.start.run before).lookup? u.name = none ∧ v.name = u.name ∧
      v.identifier = u.span := by
  obtain ⟨before, e, after, hsplit, hsize, hnew⟩ := Resolver.exists_split_of_variable hv
  obtain ⟨u, rfl, hlookup, hname, -, hident, -⟩ := Resolver.assign_of_newVariable? hnew hhoisted
  exact ⟨before, u, after, hsplit, hsize, hlookup, hname, hident⟩

/-- A place has one global at most, and one just when the write that stands there leads to no
variable. -/
theorem hoisted_unique (h : parse source = .ok chunk)
    (hsplit : chunk.events = before ++ .assign u :: after) (hv : chunk.resolve.vars[k]? = some v)
    (hhoisted : v.hoisted = true) (hident : v.identifier = u.span) :
    (Resolver.start.run before).graph.vars.size = k ∧
      (Resolver.start.run before).lookup? u.name = none := by
  obtain ⟨before', u', after', hsplit', hsize, hlookup, -, hident'⟩ :=
    exists_assign_of_hoisted hv hhoisted
  have hplace : (ScopeEvent.assign u').place? true = some u.span.start := by
    rw [← hident, hident']
    rfl
  obtain ⟨rfl, hsame⟩ := split_unique h hsplit hsplit' rfl hplace
  cases hsame
  exact ⟨hsize, hlookup⟩

theorem exists_hoisted_of_assign (hsplit : chunk.events = before ++ .assign u :: after)
    (hlookup : (Resolver.start.run before).lookup? u.name = none) :
    ∃ v, chunk.resolve.vars[(Resolver.start.run before).graph.vars.size]? = some v ∧
      v.hoisted = true ∧ v.identifier = u.span ∧ v.name = u.name ∧
      v.scope = (Resolver.start.run before).current ∧ v.shadowed = none := by
  have hnew : (Resolver.start.run before).newVariable? (.assign u) =
      some ⟨u.name, (Resolver.start.run before).current, u.span, [], none, false, true, none,
        .unknown, []⟩ := by
    rw [Resolver.newVariable?, hlookup]
    rfl
  obtain ⟨v, hv, hbare⟩ := Resolver.exists_variable_of_split hsplit hnew
  simp only [Variable.bare, Variable.mk.injEq] at hbare
  exact ⟨v, hv, hbare.2.2.2.2.2.2.1, hbare.2.2.1, hbare.1, hbare.2.1, hbare.2.2.2.2.1⟩

theorem exists_reference_of_hoisting (hsplit : chunk.events = before ++ .assign u :: after)
    (hlookup : (Resolver.start.run before).lookup? u.name = none) :
    ∃ ref ∈ chunk.resolve.references, ref.use = u ∧ (ref.resolved = none ∨
      ref.resolved = some (Resolver.start.run before).graph.vars.size) := by
  obtain ⟨ref, href, hnew, hresolved⟩ := Resolver.exists_reference_of_split hsplit rfl
  have huse := (Resolver.use?_of_newReference? hnew).1
  refine ⟨ref, Array.mem_of_getElem? href, Option.some.inj huse.symm, ?_⟩
  cases hread : u.usage.read with
  | false => exact .inl ((hresolved (.inr hread)).trans hlookup)
  | true =>
    have hopen := Chunk.scopes_ne_nil_of_use? hsplit rfl
    obtain ⟨claimed, hclaimed, hself⟩ :=
      Resolver.exists_claimed_write (chunk.linked_run hsplit) hopen hlookup hread
    -- What has been claimed is not given away again.
    obtain ⟨ref', href', hlater⟩ := Resolver.Retains.run _ after _ _ hclaimed
    rw [hsplit, Resolver.run_append] at href
    obtain rfl : ref = ref' := Option.some.inj (href.symm.trans href')
    exact .inr ((hlater.resolved (.inl (by simp [hself]))).trans hself)

/-- Globals and the writes that create them. No read of the name of a global is without a variable
in the scope of the global or inside of it. A write to a name creates exactly one global if no
variable of the name is visible in its scope at the time: the global stands where the write does,
belongs to its scope and hides nothing. If one is visible, the write creates none. All globals come
about in this way. -/
theorem hoisting (h : parse source = .ok chunk) :
    (∀ ref ∈ chunk.resolve.references, ref.read = true → ref.resolved = none →
      ∀ v ∈ chunk.resolve.vars, v.hoisted = true → v.name = ref.name →
        chunk.resolve.within ref.scope v.scope = false) ∧
    (∀ i ∈ chunk.bareWrites, ∃ before u after ref,
      chunk.events = before ++ .assign u :: after ∧ u.name = i.name ∧ u.span = i.span ∧
      ref ∈ chunk.resolve.references ∧ ref.span = i.span ∧
      (¬ (Resolver.start.run before).graph.Shows ref.scope i.name →
        ∃ (id : Nat) (v : Variable), chunk.resolve.vars[id]? = some v ∧ v.hoisted = true ∧
          v.identifier = i.span ∧ v.name = i.name ∧ v.scope = ref.scope ∧ v.shadowed = none ∧
          ∀ (id' : Nat) (v' : Variable), chunk.resolve.vars[id']? = some v' → v'.hoisted = true →
            v'.identifier = i.span → id' = id) ∧
      ((Resolver.start.run before).graph.Shows ref.scope i.name →
        ∀ v ∈ chunk.resolve.vars, v.hoisted = true → v.identifier ≠ i.span)) ∧
    (∀ v ∈ chunk.resolve.vars, v.hoisted = true →
      ∃ i ∈ chunk.bareWrites, v.identifier = i.span) := by
  refine ⟨fun ref href hread hnone v hv hhoisted hname => ?_, fun i hi => ?_,
    fun v hv hhoisted => ?_⟩
  · rw [← Bool.not_eq_true]
    intro hwithin
    exact not_inside_of_unresolved h href hread hnone hv hhoisted hname
      (ScopeGraph.inside_of_within hwithin)
  · obtain ⟨u, hu, hname, hspan⟩ := Chunk.exists_assign_of_mem_bareWrites hi
    obtain ⟨before, after, hsplit⟩ := List.append_of_mem hu
    obtain ⟨ref, href, hmade, -⟩ := Resolver.exists_reference_of_split hsplit rfl
    simp only [Resolver.newReference?, ScopeEvent.use?, Option.map_some, Reference.bare,
      Option.some.injEq, Reference.mk.injEq] at hmade
    have hopen := Chunk.scopes_ne_nil_of_use? hsplit rfl
    -- The look-up of the event tells whether a variable of the name is visible.
    have hshows := (chunk.linked_run hsplit).lookup?_eq_none_iff hopen (name_ne_of_assign h hu)
    rw [hmade.2.2.1, hname] at hshows
    refine ⟨before, u, after, ref, hsplit, hname, hspan, Array.mem_of_getElem? href,
      hmade.2.1.symm.trans hspan, fun hhidden => ?_, fun hvisible v hv hhoisted hident => ?_⟩
    · have hlookup := hshows.mpr hhidden
      rw [← hname] at hlookup
      obtain ⟨v, hv, hhoisted, hident, hvname, hscope, hshadowed⟩ :=
        exists_hoisted_of_assign hsplit hlookup
      refine ⟨_, v, hv, hhoisted, hident.trans hspan, hvname.trans hname,
        hscope.trans hmade.2.2.1, hshadowed, fun id' v' hv' hhoisted' hident' => ?_⟩
      exact (hoisted_unique h hsplit hv' hhoisted' (hident'.trans hspan.symm)).1.symm
    · obtain ⟨k, hk⟩ := Array.mem_iff_getElem?.mp hv
      -- A global at this place could only come from this very event.
      have hlookup := (hoisted_unique h hsplit hk hhoisted (hident.trans hspan.symm)).2
      rw [hname] at hlookup
      exact hshows.mp hlookup hvisible
  · obtain ⟨k, hk⟩ := Array.mem_iff_getElem?.mp hv
    obtain ⟨before, u, after, hsplit, -, -, -, hident⟩ := exists_assign_of_hoisted hk hhoisted
    have hu : .assign u ∈ chunk.events := by simp [hsplit]
    obtain ⟨i, hi, -, hspan⟩ := Chunk.exists_bareWrite_of_assign hu
    exact ⟨i, hi, hident.trans hspan⟩

theorem hoisting_nested :
    ∃ chunk, parse ("print(g) function f() return g end g = 1 local x do g, h = x, g end " ++
        "x = 2" : Bytes) = .ok chunk ∧
      chunk.bareWrites.map Ident.pos = [18, 35, 52, 55, 68] ∧
      (chunk.resolve.vars.toList.filter Variable.hoisted).map
        (fun v => (v.identifier.start, v.scope)) = [(18, 0), (35, 0), (55, 2)] ∧
      (∀ ref ∈ chunk.resolve.references, ref.read = true → ref.resolved = none →
        ∀ v ∈ chunk.resolve.vars, v.hoisted = true → v.name = ref.name →
          chunk.resolve.within ref.scope v.scope = false) ∧
      ∀ v ∈ chunk.resolve.vars, v.hoisted = true →
        ∃ i ∈ chunk.bareWrites, v.identifier = i.span := by
  refine exists_ok_and_and ⟨_, rfl, rfl, rfl⟩ fun _ hparse _ => ?_
  obtain ⟨hreads, -, hall⟩ := hoisting hparse
  exact ⟨hreads, hall⟩

end Parser

end LuaLint
