import LuaLint.Scope.Query
import LuaLint.Proofs.Scope.History

/-!
# The innermost scope at an offset

The scopes of a parsed chunk whose ranges share an offset lie inside of each other, since they
belong to nodes that do. The shortest of them is the innermost one, and it is the scope of the
reference at the offset. Only the variables of a loop stand outside of the scope that they are
declared in.

Main statements: `Acts.settles`, `Parser.scopeAt_innermost`.
-/

namespace LuaLint

open List Resolver Outline

variable {g : ScopeGraph} {i off j : Nat} {e : ScopeEvent}

/-! ## Ranges of nodes -/

/-- The ranges of some outlines are in order, and no two of the outlines share an offset. -/
structure Outline.Clear (os : List Outline) : Prop where
  placed : ∀ o ∈ os, o.Placed
  apart : os.Pairwise fun o o' => ∀ off, Reaches [o] off → ¬ Reaches [o'] off

namespace Outline

variable {os os' : List Outline} {n : Node} {off : Nat}

theorem reaches_append : Reaches (os ++ os') off ↔ Reaches os off ∨ Reaches os' off := by
  simp only [Reaches, mem_append, or_and_right, exists_or]

theorem Reaches.perm (h : Reaches os off) (hperm : os.Perm os') : Reaches os' off := by
  obtain ⟨o, ho, hoff⟩ := h
  exact ⟨o, hperm.mem_iff.mp ho, hoff⟩

theorem Clear.perm (h : Clear os) (hperm : os'.Perm os) : Clear os' where
  placed o ho := h.placed o (hperm.mem_iff.mp ho)
  apart := h.apart.perm hperm.symm fun hapart off h' h => hapart off h h'

theorem Clear.append (h : Clear (os ++ os')) :
    Clear os ∧ Clear os' ∧ ∀ off, Reaches os off → ¬ Reaches os' off := by
  obtain ⟨hplaced, hapart⟩ := h
  rw [forall_mem_append] at hplaced
  obtain ⟨hos, hos', hboth⟩ := pairwise_append.mp hapart
  refine ⟨⟨hplaced.1, hos⟩, ⟨hplaced.2, hos'⟩, ?_⟩
  rintro off ⟨o, ho, hoff⟩ ⟨o', ho', hoff'⟩
  exact hboth o ho o' ho' off ⟨o, mem_singleton_self _, hoff⟩
    ⟨o', mem_singleton_self _, hoff'⟩

theorem Clear.children (h : Clear [.mk n os]) :
    (Outline.mk n os).Placed ∧ Clear os ∧ ∀ off, Reaches os off → Reaches [.mk n os] off := by
  have hnode := h.placed _ (mem_singleton_self _)
  refine ⟨hnode, ?_, fun off hoff => ⟨_, mem_singleton_self _, hnode.inside hoff⟩⟩
  cases hnode with
  | mk _ _ hplaced _ hordered =>
    refine ⟨hplaced, hordered.imp fun hle off => ?_⟩
    rintro ⟨o, ho, -, hlt⟩ ⟨o', ho', hge, -⟩
    cases mem_singleton.mp ho
    cases mem_singleton.mp ho'
    omega

end Outline

/-! ## Settled scopes -/

namespace ScopeGraph

/-- An offset lies in the range of a scope. -/
def Has (g : ScopeGraph) (i off : Nat) : Prop :=
  ∃ s, g.scopes[i]? = some s ∧ s.span.start ≤ off ∧ off < s.span.stop

theorem Has.lt (h : g.Has i off) : i < g.scopes.size := by
  obtain ⟨s, hs, -⟩ := h
  exact (Array.getElem?_eq_some_iff.mp hs).1

/-- A scope lies inside of another one, and so does its range. -/
structure Nest (g : ScopeGraph) (i j : Nat) : Prop where
  inside : g.Inside i j
  range : ∀ off, g.Has i off → g.Has j off

theorem Inside.trans {k : Nat} (h : g.Inside i j) (h' : g.Inside j k) : g.Inside i k := by
  induction h with
  | self => exact h'
  | parent hs hparent _ ih => exact .parent hs hparent (ih h')

theorem Inside.le (h : g.Inside i j) (hg : g.Rooted) : j ≤ i := by
  induction h with
  | self => exact Nat.le_refl _
  | parent hs hparent _ ih =>
    rcases hg _ _ hs with ⟨-, hnone⟩ | ⟨p, hlt, hp⟩
    · cases hnone.symm.trans hparent
    · cases hp.symm.trans hparent
      exact Nat.le_trans ih (Nat.le_of_lt hlt)

end ScopeGraph

/-- The scopes with numbers from `a` to `b` lie inside of the scope `c`, and the references with
numbers from `m` to `n` in one of them, all in a region `A`. Of two scopes that share an offset the
later one lies in the other. Some places do not count. -/
structure Settled (g : ScopeGraph) (exempt : Span → Prop) (A : Nat → Prop) (c a b m n : Nat) :
    Prop where
  region : ∀ i off, a ≤ i → i < b → g.Has i off → g.Inside i c ∧ A off
  nested : ∀ i j off, a ≤ j → j ≤ i → i < b → g.Has i off → g.Has j off → g.Nest i j
  made : ∀ k ref, m ≤ k → k < n → g.references[k]? = some ref → exempt ref.span ∨
    A ref.span.start ∧ (ref.scope = c ∨ g.Has ref.scope ref.span.start) ∧ g.Inside ref.scope c ∧
      ∀ i, a ≤ i → i < b → g.Has i ref.span.start → g.Inside ref.scope i

namespace Settled

variable {g : ScopeGraph} {exempt : Span → Prop} {A A' : Nat → Prop} {a b c d l m n : Nat}

theorem none : Settled g exempt A c a a m m :=
  ⟨fun _ _ ha hb => by omega, fun _ _ _ ha hle hb => by omega, fun _ _ ha hb => by omega⟩

theorem mono (h : Settled g exempt A c a b m n) (hA : ∀ off, A off → A' off) :
    Settled g exempt A' c a b m n where
  region i off ha hb hoff := (h.region i off ha hb hoff).imp_right (hA off)
  nested := h.nested
  made k ref hm hn href := (h.made k ref hm hn href).imp_right fun h => ⟨hA _ h.1, h.2⟩

theorem append (h : Settled g exempt A c a b l m) (h' : Settled g exempt A' c b d m n)
    (hapart : ∀ off, A off → ¬ A' off) :
    Settled g exempt (fun off => A off ∨ A' off) c a d l n where
  region i off ha hd hoff := by
    rcases Nat.lt_or_ge i b with hb | hb
    · exact (h.region i off ha hb hoff).imp_right .inl
    · exact (h'.region i off hb hd hoff).imp_right .inr
  nested i j off ha hle hd hi hj := by
    rcases Nat.lt_or_ge i b with hb | hb
    · exact h.nested i j off ha hle hb hi hj
    · rcases Nat.lt_or_ge j b with hb' | hb'
      · exact absurd (h'.region i off hb hd hi).2 (hapart off (h.region j off ha hb' hj).2)
      · exact h'.nested i j off hb' hle hd hi hj
  made k ref hl hn href := by
    rcases Nat.lt_or_ge k m with hm | hm
    · refine (h.made k ref hl hm href).imp_right fun ⟨hA, hscope, hc, hinside⟩ =>
        ⟨.inl hA, hscope, hc, fun i ha hd hi => ?_⟩
      rcases Nat.lt_or_ge i b with hb | hb
      · exact hinside i ha hb hi
      · exact absurd (h'.region i _ hb hd hi).2 (hapart _ hA)
    · refine (h'.made k ref hm hn href).imp_right fun ⟨hA', hscope, hc, hinside⟩ =>
        ⟨.inr hA', hscope, hc, fun i ha hd hi => ?_⟩
      rcases Nat.lt_or_ge i b with hb | hb
      · exact absurd hA' (hapart _ (h.region i _ ha hb hi).2)
      · exact hinside i hb hd hi

theorem enclose (h : Settled g exempt A a (a + 1) b m n) (hA : ∀ off, A off → g.Has a off)
    (hc : g.Inside a c) (hA' : ∀ off, g.Has a off → A' off) : Settled g exempt A' c a b m n where
  region i off ha hb hoff := by
    rcases Nat.eq_or_lt_of_le ha with rfl | ha
    · exact ⟨hc, hA' off hoff⟩
    · obtain ⟨hinside, hoff⟩ := h.region i off ha hb hoff
      exact ⟨hinside.trans hc, hA' off (hA off hoff)⟩
  nested i j off ha hle hb hi hj := by
    rcases Nat.eq_or_lt_of_le ha with rfl | ha
    · rcases Nat.eq_or_lt_of_le hle with rfl | hlt
      · obtain ⟨s, hs, -⟩ := hi
        exact ⟨.self hs, fun _ hoff => hoff⟩
      · exact ⟨(h.region i off hlt hb hi).1, fun off hoff => hA off (h.region i off hlt hb hoff).2⟩
    · exact h.nested i j off ha hle hb hi hj
  made k ref hm hn href := by
    refine (h.made k ref hm hn href).imp_right fun ⟨hoff, hscope, ha, hinside⟩ =>
      ⟨hA' _ (hA _ hoff), .inr ?_, ha.trans hc, fun i hi hb hhas => ?_⟩
    · rcases hscope with hscope | hscope
      · rw [hscope]
        exact hA _ hoff
      · exact hscope
    · rcases Nat.eq_or_lt_of_le hi with rfl | hi
      · exact ha
      · exact hinside i hi hb hhas

end Settled

/-! ## Events -/

/-- What some events do settles in a region, whenever they take place and whatever comes after. -/
def Settles (exempt : Span → Prop) (A : Nat → Prop) (es : List ScopeEvent) : Prop :=
  ∀ (r : Resolver) (c : Nat) (outer : List Nat) (later : List ScopeEvent), r.scopes = c :: outer →
    c < r.graph.scopes.size →
    Settled ((r.run es).run later).graph exempt A c r.graph.scopes.size (r.run es).graph.scopes.size
      r.graph.references.size (r.run es).graph.references.size

namespace Settles

variable {exempt : Span → Prop} {A A' : Nat → Prop} {es es' : List ScopeEvent}

theorem mono (h : Settles exempt A es) (hA : ∀ off, A off → A' off) : Settles exempt A' es :=
  fun r c outer later hopen hc => (h r c outer later hopen hc).mono hA

theorem nil : Settles exempt A [] := fun _ _ _ _ _ _ => .none

theorem append (hes : Balanced es) (h : Settles exempt A es) (h' : Settles exempt A' es')
    (hapart : ∀ off, A off → ¬ A' off) : Settles exempt (fun off => A off ∨ A' off)
    (es ++ es') := by
  intro r c outer later hopen hc
  have hle := (view_prefix_run places_step r es).length_le
  rw [length_places, length_places] at hle
  have hfirst := h r c outer (es' ++ later) hopen hc
  rw [run_append] at hfirst ⊢
  exact hfirst.append (h' _ c outer later ((hes.scopes_run r).trans hopen)
    (Nat.lt_of_lt_of_le hc hle)) hapart

theorem plain (he : e.Plain) (huse : ∀ u, e.use? = some u → exempt u.span ∨ A u.span.start) :
    Settles exempt A [e] := by
  intro r c outer later hopen hc
  have hnone : r.newPlace? e = none := by cases e <;> first | rfl | cases he
  have hsize : (r.run [e]).graph.scopes.size = r.graph.scopes.size := by
    rw [← length_places, ← length_places]
    change (r.step e).places.length = _
    rw [places_step, hnone]
    simp
  rw [hsize]
  refine ⟨fun _ _ ha hb => by omega, fun _ _ _ ha hle hb => by omega, fun k ref hge hlt href => ?_⟩
  obtain ⟨hu, hscope⟩ := use_of_run_step hge hlt href
  have hcurrent : ref.scope = c := hscope.trans (by simp [current, hopen])
  obtain ⟨s, hs, -⟩ := exists_scope_run r (e :: later) (Array.getElem?_eq_getElem hc)
  rw [hcurrent]
  exact (huse _ hu).imp_right fun hA => ⟨hA, .inl rfl, .self hs, fun i ha hb => by omega⟩

theorem silent (he : e.Plain) (hnone : e.use? = none) : Settles exempt A [e] :=
  .plain he fun u hu => by
    rw [hnone] at hu
    cases hu

theorem calls (c : Call) : Settles exempt A c.events := by
  unfold Call.events
  split
  · exact silent trivial rfl
  · exact nil

theorem entered (h : Settles exempt A es) (r : Resolver) (kind : ScopeKind) (span : Span)
    (later : List ScopeEvent) (hA : ∀ off, A off → span.start ≤ off ∧ off < span.stop) :
    ∃ s, (((r.enter kind span).run es).run later).graph.scopes[r.graph.scopes.size]? = some s ∧
      s.parent = r.scopes.head? ∧ s.span = span ∧ ∀ (c : Nat) (A' : Nat → Prop),
        (((r.enter kind span).run es).run later).graph.Inside r.graph.scopes.size c →
        (∀ off, span.start ≤ off → off < span.stop → A' off) →
        Settled (((r.enter kind span).run es).run later).graph exempt A' c r.graph.scopes.size
          ((r.enter kind span).run es).graph.scopes.size r.graph.references.size
          ((r.enter kind span).run es).graph.references.size := by
  have hsize : (r.enter kind span).graph.scopes.size = r.graph.scopes.size + 1 := by
    simp [enter]
  have hinner := h (r.enter kind span) r.graph.scopes.size r.scopes later rfl (by omega)
  rw [hsize] at hinner
  obtain ⟨s, hs, hparent, hspan⟩ := exists_scope_run (r.enter kind span) (es ++ later)
    (i := r.graph.scopes.size) (s := ⟨kind, r.scopes.head?, span, [], []⟩) (by simp [enter])
  rw [run_append] at hs
  refine ⟨s, hs, hparent, hspan, fun c A' hc hA' => hinner.enclose (fun off hoff => ?_) hc ?_⟩
  · exact ⟨s, hs, hspan ▸ hA off hoff⟩
  · rintro off ⟨s', hs', hoff⟩
    cases Option.some.inj (hs.symm.trans hs')
    rw [hspan] at hoff
    exact hA' off hoff.1 hoff.2

theorem scope (h : Settles exempt A es) {kind : ScopeKind} {span : Span}
    (hA : ∀ off, A off → span.start ≤ off ∧ off < span.stop)
    (hA' : ∀ off, span.start ≤ off → off < span.stop → A' off) :
    Settles exempt A' (.enter kind span :: es ++ [.leave]) := by
  intro r c outer later hopen hc
  have hrun : ∀ later, r.run (.enter kind span :: es ++ later) =
      ((r.enter kind span).run es).run later :=
    run_append (r.enter kind span) es
  obtain ⟨s, hs, hparent, -, hsettled⟩ := h.entered r kind span (.leave :: later) hA
  obtain ⟨s', hs', -⟩ := exists_scope_run r (.enter kind span :: es ++ .leave :: later)
    (Array.getElem?_eq_getElem hc)
  rw [hrun] at hs' ⊢
  exact hsettled c A' (.parent hs (hparent.trans (by rw [hopen]; rfl)) (.self hs')) hA'

end Settles

/-! ## Syntax -/

/-- Each way of making larger pieces keeps scopes inside of each other. -/
theorem Acts.settles {r : Relocation} {env env' : Env} {ms : List Mention} {os : List Outline}
    {bs : List Binding} {es fs : List ScopeEvent} (h : Acts r env env' ms os bs es fs)
    {exempt : Span → Prop} (hclear : Clear os)
    (hloop : ∀ i : Ident, i.mention .loopVariable ∈ ms → exempt i.span) :
    Settles exempt (Reaches os) es := by
  induction h with
  | nil env => exact .nil
  | join _ _ hms hos _ _ h _ ih ih' =>
    -- The two parts reach different offsets, so that no scope of one meets the other.
    obtain ⟨hleft, hright, hapart⟩ := (hclear.perm hos).append
    have hmem := forall_mem_append.mp fun m (hm : m ∈ _ ++ _) => hms.mem_iff.mp hm
    refine (Settles.append h.plays.balanced (ih hleft fun i hi => hloop i (hmem.1 _ hi))
      (ih' hright fun i hi => hloop i (hmem.2 _ hi)) hapart).mono fun off hoff => ?_
    exact (reaches_append.mpr hoff).perm hos
  | more ms' is _ _ ih =>
    exact (ih hclear.append.1 fun i hi => hloop i (mem_append_left _ hi)).mono fun off hoff =>
      reaches_append.mpr (.inl hoff)
  | node n _ _ ih =>
    obtain ⟨-, hchildren, hreach⟩ := hclear.children
    exact (ih hchildren hloop).mono hreach
  | @lookup env n e e' usage i role _ hn hu _ =>
    have hplain : e.Plain := by cases e <;> trivial
    refine .plain hplain fun u hu' => .inr ?_
    cases hu.symm.trans hu'
    have hstart : n.span.start = i.span.start ∧ n.isBlock = false := by
      rcases hn with rfl | ⟨rfl, -⟩ <;> exact ⟨rfl, rfl⟩
    have hlt := hclear.children.1.lt (Node.not_isEmptyBlock hstart.2)
    exact ⟨_, mem_singleton_self _, Nat.le_of_eq hstart.1, hstart.1 ▸ hlt⟩
  | @own env os definition attrib value usage fs i role _ hos _ =>
    -- A loop variable stands outside of the scope that it belongs to, and is exempt.
    have huse : exempt i.span ∨ Reaches os i.span.start := by
      rcases hos with rfl | ⟨rfl, -⟩
      · have hlt := hclear.children.1.lt (Node.not_isEmptyBlock rfl)
        exact .inr ⟨_, mem_singleton_self _, Nat.le_refl _, hlt⟩
      · exact .inl (hloop i (mem_singleton_self _))
    rw [← singleton_append]
    refine Settles.mono (Settles.append (A := fun _ => False) (.plain trivial) (.silent trivial rfl)
      (.plain (A := Reaches os) trivial fun u hu => ?_) fun _ h => h.elim)
      fun off hoff => hoff.resolve_left id
    cases hu
    exact huse
  | declare => exact .silent trivial rfl
  | self m => exact .silent trivial rfl
  | calls c _ h ih =>
    exact (Settles.append h.plays.balanced (ih hclear hloop) (.calls c) fun _ _ h => h).mono
      fun off hoff => hoff.resolve_right id
  | @scope env inner env' ms os bs es fs n kind span span' hspan _ _ _ ih =>
    obtain ⟨hplaced, hchildren, -⟩ := hclear.children
    obtain ⟨hinner, houter⟩ := hspan hplaced
    exact (ih hchildren hloop).scope hinner fun off hle hlt =>
      ⟨_, mem_singleton_self _, houter off hle hlt⟩

/-! ## Offsets -/

namespace ScopeGraph

variable {g : ScopeGraph} {i j off : Nat}

def width (g : ScopeGraph) (i : Nat) : Int := ((g.scopes[i]?).map fun s => s.span.length).getD 0

theorem width_eq {s : Scope} (hs : g.scopes[i]? = some s) :
    g.width i = (s.span.stop : Int) - s.span.start := by
  simp [width, hs, Span.length]

theorem Nest.width_le (h : g.Nest i j) (hi : g.Has i off) : g.width i ≤ g.width j := by
  obtain ⟨s, hs, hle, hlt⟩ := hi
  obtain ⟨t, ht, hstart, -⟩ := h.range s.span.start ⟨s, hs, Nat.le_refl _, by omega⟩
  obtain ⟨t', ht', -, hstop⟩ := h.range (s.span.stop - 1) ⟨s, hs, by omega, by omega⟩
  cases Option.some.inj (ht.symm.trans ht')
  rw [width_eq hs, width_eq ht]
  omega

/-- A search that goes through the scopes one by one, and takes those at an offset which are no
longer than the best one before, ends with the shortest of them, and the latest of these. -/
theorem has_foldl {step : Nat → Nat → Nat} (h : g.Has 0 off)
    (htake : ∀ best n, g.Has n off → g.width n ≤ g.width best → step best n = n)
    (hkeep : ∀ best n, ¬ (g.Has n off ∧ g.width n ≤ g.width best) → step best n = best) (n : Nat) :
    g.Has ((List.range n).foldl step 0) off ∧ ∀ i < n, g.Has i off →
      g.width ((List.range n).foldl step 0) ≤ g.width i ∧
        (g.width i = g.width ((List.range n).foldl step 0) → i ≤ (List.range n).foldl step 0) := by
  induction n with
  | zero => exact ⟨h, by simp⟩
  | succ n ih =>
    rw [range_succ, foldl_append, foldl_cons, foldl_nil]
    generalize (range n).foldl step 0 = best at ih
    obtain ⟨hhas, hleast⟩ := ih
    by_cases hn : g.Has n off ∧ g.width n ≤ g.width best
    · rw [htake best n hn.1 hn.2]
      refine ⟨hn.1, fun i hi hhas => ?_⟩
      rcases Nat.lt_succ_iff_lt_or_eq.mp hi with hi | rfl
      · have := hleast i hi hhas
        omega
      · omega
    · rw [hkeep best n hn]
      refine ⟨hhas, fun i hi hhas => ?_⟩
      rcases Nat.lt_succ_iff_lt_or_eq.mp hi with hi | rfl
      · exact hleast i hi hhas
      · have : ¬ g.width i ≤ g.width best := fun hle => hn ⟨hhas, hle⟩
        omega

/-- Among the scopes at an offset the shortest is found, and the latest of these. -/
theorem has_scopeAt (h : g.Has 0 off) : g.Has (g.scopeAt off) off ∧
    ∀ i, g.Has i off → g.width (g.scopeAt off) ≤ g.width i ∧
      (g.width i = g.width (g.scopeAt off) → i ≤ g.scopeAt off) := by
  suffices hsearch : g.Has (g.scopeAt off) off ∧ ∀ i < g.scopes.size, g.Has i off →
      g.width (g.scopeAt off) ≤ g.width i ∧
        (g.width i = g.width (g.scopeAt off) → i ≤ g.scopeAt off) from
    ⟨hsearch.1, fun i hi => hsearch.2 i hi.lt hi⟩
  refine has_foldl h (fun best n hn hwidth => ?_) (fun best n hn => ?_) g.scopes.size
  · obtain ⟨s, hs, hoff⟩ := hn
    have hlength : g.width n = s.span.length := by simp [width, hs]
    simp only [hs, Bool.and_eq_true, decide_eq_true_eq]
    exact if_pos ⟨Span.covers_iff.mpr hoff, hlength ▸ hwidth⟩
  · cases hs : g.scopes[n]? with
    | none => simp
    | some s =>
      have hlength : g.width n = s.span.length := by simp [width, hs]
      simp only [Bool.and_eq_true, decide_eq_true_eq]
      exact if_neg fun hand => hn ⟨⟨s, hs, Span.covers_iff.mp hand.1⟩, hlength ▸ hand.2⟩

end ScopeGraph

theorem Settled.inside_scopeAt {exempt : Span → Prop} {A : Nat → Prop} {c m n : Nat}
    (h : Settled g exempt A c 0 g.scopes.size m n) (hoff : g.Has 0 off) :
    g.Has (g.scopeAt off) off ∧ ∀ i, g.Has i off → g.Inside (g.scopeAt off) i := by
  obtain ⟨hbest, hleast⟩ := ScopeGraph.has_scopeAt hoff
  refine ⟨hbest, fun i hi => ?_⟩
  rcases Nat.le_total i (g.scopeAt off) with hle | hle
  · exact (h.nested _ i off (Nat.zero_le _) hle hbest.lt hbest hi).inside
  · -- A later scope would lie inside of the best one, and be no longer.
    have hwidth := (h.nested i _ off (Nat.zero_le _) hle hi.lt hi hbest).width_le hi
    have heq : i = g.scopeAt off := by
      have := hleast i hi
      omega
    obtain ⟨s, hs, -⟩ := hi
    exact heq ▸ .self hs

/-! ## Chunks -/

theorem Chunk.settled (c : Chunk) {exempt : Span → Prop} (hclear : Clear [c.outline])
    (hsize : ∀ off, Reaches [c.outline] off → off < c.size)
    (hloop : ∀ i : Ident, i.mention .loopVariable ∈ c.mentions → exempt i.span) :
    (∀ off < c.size, c.resolve.Has 0 off) ∧ Settled c.resolve exempt (· < c.size) 0 0
      c.resolve.scopes.size 0 c.resolve.references.size := by
  have hrun : start.run c.events =
      ((start.enter .file ⟨0, c.size⟩).run c.block.events).run [.leave] :=
    run_append (start.enter .file ⟨0, c.size⟩) c.block.events [.leave]
  obtain ⟨s, hs, -, hspan, hsettled⟩ :=
    ((Block.acts .still .empty c.block).settles hclear hloop).entered
    start .file ⟨0, c.size⟩ [.leave] fun off hoff => ⟨Nat.zero_le _, hsize off hoff⟩
  have hgraph : ((start.enter .file ⟨0, c.size⟩).run c.block.events).graph = c.resolve :=
    (congrArg graph hrun).symm
  rw [← hrun] at hs hsettled
  rw [hgraph] at hsettled
  exact ⟨fun off hoff => ⟨s, hs, hspan ▸ ⟨Nat.zero_le _, hoff⟩⟩,
    hsettled 0 _ (.self hs) fun _ _ hlt => hlt⟩

namespace Parser

variable {source : Bytes} {chunk : Chunk}

theorem clear_outline (h : parse source = .ok chunk) : Clear [chunk.outline] ∧
    ∀ off, Outline.Reaches [chunk.outline] off → off < chunk.size := by
  have hnested := nested_of_parse h
  refine ⟨⟨by simpa using hnested.placed, pairwise_singleton _ _⟩, ?_⟩
  rintro off ⟨o, ho, hle, hlt⟩
  rw [mem_singleton.mp ho] at hle hlt
  rcases hnested.runs _ (node_mem_nodes chunk.outline) with ⟨pos, hempty⟩ | hruns
  · rw [hempty] at hle hlt
    exact absurd hlt (Nat.not_lt.mpr hle)
  · obtain ⟨-, t, ht, hstop⟩ := hruns.ends
    have := stop_le_length h ht
    rw [(chunk_of_parse h).2.2.2]
    omega

/-- At every offset of a parsed source the innermost scope is found: it contains the offset, and
every other scope that does lies around it. Where a name is used, it is the scope of the reference,
unless the name is declared there by a loop. -/
theorem scopeAt_innermost (h : parse source = .ok chunk) :
    (∀ off : Int, 0 ≤ off → off < chunk.size →
      ∃ s, chunk.resolve.scopes[chunk.resolve.scopeAt off]? = some s ∧ s.span.covers off = true ∧
        ∀ (i : Nat) (t : Scope), chunk.resolve.scopes[i]? = some t → t.span.covers off = true →
          chunk.resolve.within (chunk.resolve.scopeAt off) i = true) ∧
    ∀ ref ∈ chunk.resolve.references,
      (∀ m ∈ chunk.mentions, m.role = .loopVariable → m.span ≠ ref.span) →
        chunk.resolve.scopeAt ref.span.start = ref.scope := by
  obtain ⟨hclear, hsize⟩ := clear_outline h
  obtain ⟨hfile, hsettled⟩ := @Chunk.settled chunk (fun span => ∃ m ∈ chunk.mentions,
    m.role = .loopVariable ∧ m.span = span) hclear hsize fun i hi => ⟨_, hi, rfl, rfl⟩
  have hrooted := chunk.linked_resolve.rooted
  refine ⟨fun off hge hlt => ?_, fun ref href hplain => ?_⟩
  -- The scope found contains the offset and lies inside of all others that do.
  · lift off to Nat using hge
    obtain ⟨⟨s, hs, hoff⟩, hinside⟩ := hsettled.inside_scopeAt (hfile off (by omega))
    refine ⟨s, hs, Span.covers_iff.mpr hoff, fun i t ht hcovers => ?_⟩
    exact (hinside i ⟨t, ht, Span.covers_iff.mp hcovers⟩).within hrooted
  · obtain ⟨k, hk⟩ := Array.mem_iff_getElem?.mp href
    have hlt := (Array.getElem?_eq_some_iff.mp hk).1
    obtain ⟨m, hm, hrole, hspan⟩ | ⟨hin, hscope, -, hinner⟩ :=
      hsettled.made k ref (Nat.zero_le k) hlt hk
    · exact absurd hspan (hplain m hm hrole)
    -- The scope of the reference contains it, and is the last one to do so.
    · have hhas : chunk.resolve.Has ref.scope ref.span.start :=
        hscope.elim (fun hzero => hzero ▸ hfile _ hin) id
      obtain ⟨hbest, hinside⟩ := hsettled.inside_scopeAt (hfile _ hin)
      exact Nat.le_antisymm ((hinner _ (Nat.zero_le _) hbest.lt hbest).le hrooted)
        ((hinside _ hhas).le hrooted)

/-- The variable of a loop is declared inside of the loop, and its name stands outside. -/
theorem scopeAt_innermost_loop :
    ∃ chunk, parse "for i = 1, 2 do local x = i end" = .ok chunk ∧
      chunk.resolve.references.toList.map (fun ref => (ref.span.start, ref.scope)) =
        [(4, 1), (26, 1), (22, 1)] ∧ chunk.resolve.scopeAt 4 = 0 ∧
      (∃ s, chunk.resolve.scopes[chunk.resolve.scopeAt 22]? = some s ∧ s.span.covers 22 = true) ∧
      ∀ ref ∈ chunk.resolve.references, ref.span ≠ ⟨4, 5⟩ →
        chunk.resolve.scopeAt ref.span.start = ref.scope := by
  obtain ⟨chunk, hparse, hrefs, hat, hsize, hloops⟩ :
      ∃ chunk, parse "for i = 1, 2 do local x = i end" = .ok chunk ∧
        chunk.resolve.references.toList.map (fun ref => (ref.span.start, ref.scope)) =
          [(4, 1), (26, 1), (22, 1)] ∧ chunk.resolve.scopeAt 4 = 0 ∧ chunk.size = 31 ∧
        ∀ m ∈ chunk.mentions, m.role = .loopVariable → m.span = ⟨4, 5⟩ :=
    ⟨_, rfl, rfl, rfl, rfl, by decide⟩
  obtain ⟨hscopes, hscope⟩ := scopeAt_innermost hparse
  obtain ⟨s, hs, hcovers, -⟩ := hscopes 22 (by decide) (by rw [hsize]; decide)
  refine ⟨chunk, hparse, hrefs, hat, ⟨s, hs, hcovers⟩, fun ref href hne => ?_⟩
  exact hscope ref href fun m hm hrole hspan => hne (hspan.symm.trans (hloops m hm hrole))

end Parser

end LuaLint
