import LuaLint.Proofs.Parsing.Renaming
import LuaLint.Proofs.Scope.Occurrences

/-!
# Name resolution after a renaming

A declaration gets another name, and so does all that is bound to it. If nothing else has that name,
resolving names comes to the same graph as before, with the same numbers: the two graphs are built
side by side, and each name refers to the variable with the number that its old name referred to.

Main statements: `ScopeGraph.Aligned.lookup?_eq`, `InStep.aligned`, `Parser.resolved_relocate`.
-/

namespace LuaLint

open List ScopeGraph Resolver

variable {n n' : Bytes} {ids : List Nat} {u u' : Use} {d d' : Declaration} {offset : Nat → Nat}

/-! ## Aligned graphs -/

/-- What becomes of a name that refers to a declaration when another one gets a new name. -/
def renamed (decl : Span) (word : Bytes) (target : Option Span) (name : Bytes) : Bytes :=
  if target = some decl then word else name

/-- What later events need of a reference: where it is, whether it reads, and what it refers to. The
name matters as long as it refers to nothing. -/
def Reference.link (ref : Reference) : Nat × Bool × Option Nat × Option Bytes :=
  (ref.scope, ref.read, ref.resolved, if ref.resolved.isSome then none else some ref.name)

namespace ScopeGraph

/-- A scope up to its range and its references. -/
def outline? (g : ScopeGraph) (id : Nat) : Option (ScopeKind × Option Nat × List Nat) :=
  (g.scopes[id]?).map fun s => (s.kind, s.parent, s.vars)

def link? (g : ScopeGraph) (i : Nat) : Option (Nat × Bool × Option Nat × Option Bytes) :=
  (g.references[i]?).map Reference.link

/-- Two graphs are the same, but for a declaration that has the name `old` in the first one and
`word` in the second one. Nothing in the first one has that name. -/
structure Aligned (decl : Span) (old word : Bytes) (g g' : ScopeGraph) : Prop where
  scopes : ∀ id, g'.outline? id = g.outline? id
  /-- The variables have the same names, but for those of the declaration. -/
  names : ∀ id, (g'.known? id).map Prod.fst =
    (g.known? id).map fun entry => renamed decl word entry.2 entry.1
  references : ∀ i, g'.link? i = g.link? i
  hit : ∀ id name, g.known? id = some (name, some decl) → name = old
  fresh : ∀ id name target, g.known? id = some (name, target) → name ≠ word

variable {decl : Span} {old word : Bytes} {g g' : ScopeGraph}

namespace Aligned

theorem size_scopes (h : Aligned decl old word g g') : g'.scopes.size = g.scopes.size :=
  size_eq_of_same_view h.scopes

theorem size_references (h : Aligned decl old word g g') :
    g'.references.size = g.references.size := size_eq_of_same_view h.references

theorem size_vars (h : Aligned decl old word g g') : g'.vars.size = g.vars.size := by
  have hviews := h.names
  simp only [known?, Option.map_map] at hviews
  exact size_eq_of_same_view hviews

/-! ## Looking up a name -/

theorem any_name (h : Aligned decl old word g g') (hn : n' = word ∧ n = old ∨ n' = n ∧ n ≠ word)
    {id : Nat} (hid : (g'.vars[id]?).any (fun v => v.name == n') = true) :
    (g.vars[id]?).any (fun v => v.name == n) = true := by
  rw [Option.any_eq_true] at hid
  obtain ⟨v', hv', hname'⟩ := hid
  have hname : v'.name = n' := beq_iff_eq.mp hname'
  have hnames := h.names id
  rw [known?, hv', Option.map_some, Option.map_some, eq_comm, Option.map_eq_some_iff] at hnames
  obtain ⟨⟨m, target⟩, hknown, hentry⟩ := hnames
  have hm : renamed decl word target m = n' := hentry.trans hname
  suffices hmn : m = n by
    obtain ⟨v, hv, hentry⟩ := Option.map_eq_some_iff.mp hknown
    have hvname : v.name = m := congrArg Prod.fst hentry
    simp [hv, hvname, hmn]
  by_cases htarget : target = some decl
  · -- The declaration itself is the only thing that the new name can stand for.
    subst htarget
    rw [renamed, if_pos rfl] at hm
    rcases hn with ⟨-, rfl⟩ | ⟨rfl, hfresh⟩
    · exact h.hit id m hknown
    · exact absurd hm.symm hfresh
  · rw [renamed, if_neg htarget] at hm
    rcases hn with ⟨rfl, -⟩ | ⟨rfl, -⟩
    · exact absurd hm (h.fresh id m target hknown)
    · exact hm

theorem declared?_eq (h : Aligned decl old word g g')
    (hn : n' = word ∧ n = old ∨ n' = n ∧ n ≠ word)
    (hfound : ∀ id target, g.declared? n ids = some id → g.known? id = some (n, target) →
      renamed decl word target n = n') : g'.declared? n' ids = g.declared? n ids := by
  cases hdeclared : g.declared? n ids with
  | none =>
    rw [declared?, find?_eq_none] at hdeclared ⊢
    exact fun id hid hname => hdeclared id hid (h.any_name hn hname)
  | some id =>
    obtain ⟨target, hknown⟩ := known?_of_declared? hdeclared
    have hnew := h.names id
    rw [hknown, Option.map_some, hfound id target hdeclared hknown] at hnew
    have hname : (g'.vars[id]?).any (fun v => v.name == n') = true := by
      obtain ⟨entry, hentry, hfst⟩ := Option.map_eq_some_iff.mp hnew
      obtain ⟨v, hv, rfl⟩ := Option.map_eq_some_iff.mp hentry
      simpa [hv, Variable.entry] using hfst
    -- What comes before the variable did not have the name, and so does not get it.
    rw [declared?, find?_eq_some_iff_append] at hdeclared ⊢
    obtain ⟨-, before, after, hsplit, hbefore⟩ := hdeclared
    refine ⟨hname, before, after, hsplit, fun j hj => ?_⟩
    have hold := hbefore j hj
    rw [Bool.not_eq_true'] at hold ⊢
    exact Bool.eq_false_iff.mpr fun hnew => by rw [h.any_name hn hnew] at hold; cases hold

theorem contains_blocked (hn : n' = word ∧ n = old ∨ n' = n ∧ n ≠ word) (hold : old ≠ varargName)
    (hword : word ≠ varargName) (kind : ScopeKind) :
    kind.blocked.contains n' = kind.blocked.contains n := by
  rcases hn with ⟨rfl, rfl⟩ | ⟨rfl, -⟩
  · cases kind <;> simp [ScopeKind.blocked, hold, hword]
  · rfl

theorem lookup?_eq (h : Aligned decl old word g g') (hold : old ≠ varargName)
    (hword : word ≠ varargName) (hn : n' = word ∧ n = old ∨ n' = n ∧ n ≠ word)
    (hfound : ∀ id target, g.lookup? n ids = some id →
      g.known? id = some (n, target) → renamed decl word target n = n') :
    g'.lookup? n' ids = g.lookup? n ids := by
  induction ids with
  | nil => rfl
  | cons i outer ih =>
    simp only [lookup?] at hfound ⊢
    rcases same_view_cases (h.scopes i) with ⟨hs, hs'⟩ | ⟨s, s', hs, hs', heq⟩
    · rw [hs, hs']
    · simp only [Prod.mk.injEq] at heq
      obtain ⟨hkind, -, hvars⟩ := heq
      simp only [hs] at hfound ⊢
      have hdeclared : g'.declared? n' s.vars = g.declared? n s.vars := by
        refine h.declared?_eq hn fun id target hid hknown => hfound id target ?_ hknown
        rw [hid]
      simp only [hs', hkind, hvars, hdeclared, contains_blocked hn hold hword]
      cases hfirst : g.declared? n s.vars with
      | some id => rfl
      | none =>
        simp only [hfirst] at hfound ⊢
        split
        · rfl
        · rename_i hopen
          exact ih fun id target hid hknown => hfound id target (by rw [if_neg hopen, hid]) hknown

theorem within_eq (h : Aligned decl old word g g') (scope outer : Nat) :
    g'.within scope outer = g.within scope outer := by
  have hup : ∀ fuel id, g'.ancestorsUpTo fuel id = g.ancestorsUpTo fuel id := by
    intro fuel
    induction fuel with
    | zero => exact fun _ => rfl
    | succ fuel ih =>
      intro id
      rw [ancestorsUpTo, ancestorsUpTo]
      rcases same_view_cases (h.scopes id) with ⟨hs, hs'⟩ | ⟨s, s', hs, hs', heq⟩
      · rw [hs, hs']
      · simp only [Prod.mk.injEq] at heq
        simp only [hs, hs', heq.2.1, funext ih]
  rw [within, within, ancestors, ancestors, hup]

/-- Graphs stay aligned when no name of a variable changes. -/
theorem of_known (h : Aligned decl old word g g') {g₁ g₁' : ScopeGraph}
    (hknown : ∀ id, g₁.known? id = g.known? id) (hknown' : ∀ id, g₁'.known? id = g'.known? id)
    (hscopes : ∀ id, g₁'.outline? id = g₁.outline? id)
    (hreferences : ∀ i, g₁'.link? i = g₁.link? i) : Aligned decl old word g₁ g₁' where
  scopes := hscopes
  names id := by rw [hknown', hknown, h.names]
  references := hreferences
  hit id name := by
    rw [hknown]
    exact h.hit id name
  fresh id name target := by
    rw [hknown]
    exact h.fresh id name target

end Aligned

end ScopeGraph

/-! ## Events -/

namespace Resolver

/-- One graph under construction shows of scopes, variables and references what another one
shows. -/
structure Shows (r r₁ : Resolver) : Prop where
  scopes : r₁.scopes = r.scopes
  outline : ∀ id, r₁.graph.outline? id = r.graph.outline? id
  known : ∀ id, r₁.graph.known? id = r.graph.known? id
  link : ∀ i, r₁.graph.link? i = r.graph.link? i

theorem Shows.refl (r : Resolver) : Shows r r := ⟨rfl, fun _ => rfl, fun _ => rfl, fun _ => rfl⟩

theorem Shows.trans {r r₁ r₂ : Resolver} (h : Shows r r₁) (h' : Shows r₁ r₂) : Shows r r₂ where
  scopes := h'.scopes.trans h.scopes
  outline id := (h'.outline id).trans (h.outline id)
  known id := (h'.known id).trans (h.known id)
  link i := (h'.link i).trans (h.link i)

section Views

variable (r : Resolver)

theorem shows_call (c : CallEvent) : Shows r (r.call c) := by
  refine call_induction (P := Shows r) c (.refl r) (fun _ => ?_) fun r' id mark h => h.trans ?_
  · exact ⟨rfl, fun _ => rfl, fun _ => rfl, fun _ => rfl⟩
  · exact ⟨rfl, fun _ => rfl, fun _ => rfl, map_getElem?_modify (by intro; rfl) _ _⟩

theorem shows_extend (u : Use) (definition : Span) : Shows (r.use u) (r.extend u definition) := by
  simp only [extend]
  split
  · exact .refl _
  · exact ⟨rfl, fun _ => rfl, map_getElem?_modify (by intro; rfl) _ _, fun _ => rfl⟩

theorem outline?_use (u : Use) (id : Nat) : (r.use u).graph.outline? id = r.graph.outline? id :=
  map_getElem?_modify (by intro; rfl) _ _ _

theorem known?_use (u : Use) (id : Nat) : (r.use u).graph.known? id = r.graph.known? id := by
  simp only [use, known?]
  split
  · rfl
  · exact map_getElem?_modify (by intro; rfl) _ _ _

theorem link?_use (u : Use) (i : Nat) : (r.use u).graph.link? i =
      if i = r.graph.references.size then
        some (r.current, u.usage.read, r.lookup? u.name,
          if (r.lookup? u.name).isSome then none else some u.name)
      else r.graph.link? i := by
  simp only [use, link?, Array.getElem?_push]
  split <;> rfl

theorem outline?_declare (d : Declaration) (hoisted : Bool) (id : Nat) :
    (r.declare d hoisted).graph.outline? id =
      if r.current = id then
        (r.graph.outline? id).map fun o => (o.1, o.2.1, o.2.2 ++ [r.graph.vars.size])
      else r.graph.outline? id := by
  simp only [declare, outline?, Array.getElem?_modify]
  split
  · simp only [Option.map_map, Function.comp_def]
  · rfl

theorem known?_claim (name : Bytes) (id : Nat) :
    (r.claim name).graph.known? id = r.graph.known? id := map_getElem?_modify (by intro; rfl) _ _ _

end Views

/-- Two graphs under construction are the same up to a renaming. -/
structure Aligned (decl : Span) (old word : Bytes) (r r' : Resolver) : Prop where
  scopes : r'.scopes = r.scopes
  graph : r.graph.Aligned decl old word r'.graph

namespace Aligned

variable {decl : Span} {old word : Bytes} {r r' : Resolver}

variable (h : Aligned decl old word r r')
include h

theorem current : r'.current = r.current := by
  rw [Resolver.current, Resolver.current, h.scopes]

theorem shows {r₁ r₁' : Resolver} (hr : Shows r r₁) (hr' : Shows r' r₁') :
    Aligned decl old word r₁ r₁' where
  scopes := by rw [hr'.scopes, hr.scopes, h.scopes]
  graph := by
    refine h.graph.of_known hr.known hr'.known (fun id => ?_) fun i => ?_
    · rw [hr'.outline, hr.outline, h.graph.scopes]
    · rw [hr'.link, hr.link, h.graph.references]

theorem eq_old (hdecl : r.graph.declarationOf? (r.lookup? n) = some decl) : n = old := by
  obtain ⟨id, v, hid, hv, htarget⟩ := declarationOf?_eq_some.mp hdecl
  obtain ⟨target, hknown⟩ := known?_of_lookup? hid
  have hsame : some v.entry = some (n, target) := by
    rw [← hknown, known?, hv]
    rfl
  have hdecl : target = some decl := by
    rw [← htarget]
    exact (congrArg Prod.snd (Option.some.inj hsame)).symm
  exact h.graph.hit id n (hdecl ▸ hknown)

theorem lookup?_eq (hold : old ≠ varargName) (hword : word ≠ varargName) (hfresh : n ≠ word)
    (hn : n' = renamed decl word (r.graph.declarationOf? (r.lookup? n)) n) :
    r'.lookup? n' = r.lookup? n := by
  rw [lookup?, h.scopes]
  refine h.graph.lookup?_eq hold hword ?_ fun id target hid hknown => ?_
  · by_cases hdecl : r.graph.declarationOf? (r.lookup? n) = some decl
    · rw [renamed, if_pos hdecl] at hn
      exact .inl ⟨hn, h.eq_old hdecl⟩
    · rw [renamed, if_neg hdecl] at hn
      exact .inr ⟨hn, hfresh⟩
  · have htarget : r.graph.declarationOf? (r.lookup? n) = target := by
      rw [lookup?, hid, declarationOf?, Option.bind_some, hknown]
      rfl
    rw [hn, htarget]

theorem enter (kind : ScopeKind) (span span' : Span) :
    Aligned decl old word (r.enter kind span) (r'.enter kind span') where
  scopes := by simp [Resolver.enter, h.scopes, h.graph.size_scopes]
  graph := by
    refine ⟨fun id => ?_, h.graph.names, h.graph.references, h.graph.hit, h.graph.fresh⟩
    have hscope := h.graph.scopes id
    rw [outline?, outline?] at hscope
    simp only [Resolver.enter, outline?, Array.getElem?_push, h.graph.size_scopes, h.scopes]
    split
    · rfl
    · exact hscope

theorem leave : Aligned decl old word r.leave r'.leave :=
  ⟨by simp [Resolver.leave, h.scopes], h.graph⟩

/-- A use of a name that refers to the same variable. Without one it has to be the same name. -/
theorem use (hread : u'.usage.read = u.usage.read)
    (hlookup : r'.lookup? u'.name = r.lookup? u.name)
    (hname : r.lookup? u.name = none → u'.name = u.name) :
    Aligned decl old word (r.use u) (r'.use u') where
  scopes := h.scopes
  graph := by
    refine h.graph.of_known (known?_use r u) (known?_use r' u') (fun id => ?_) fun i => ?_
    · rw [outline?_use, outline?_use, h.graph.scopes]
    · rw [link?_use, link?_use, h.graph.references, h.graph.size_references, hread, hlookup,
        h.current]
      cases htarget : r.lookup? u.name with
      | none => rw [hname htarget]
      | some id => rfl

theorem declare {hoisted : Bool}
    (hname : d'.name = renamed decl word (if hoisted then none else some d.identifier) d.name)
    (hfresh : d.name ≠ word) (hhit : hoisted = false → d.identifier = decl → d.name = old) :
    Aligned decl old word (r.declare d hoisted) (r'.declare d' hoisted) where
  scopes := h.scopes
  graph := by
    refine ⟨fun id => ?_, fun id => ?_, h.graph.references, fun id name hknown => ?_,
      fun id name target hknown => ?_⟩
    · rw [outline?_declare, outline?_declare, h.graph.scopes, h.graph.size_vars, h.current]
    · rw [known?_declare, known?_declare, h.graph.size_vars]
      split
      · rw [Option.map_some, Option.map_some, hname]
      · exact h.graph.names id
    · rw [known?_declare] at hknown
      split at hknown
      · obtain ⟨rfl, htarget⟩ := Prod.mk.inj (Option.some.inj hknown)
        cases hoisted with
        | true => cases htarget
        | false => exact hhit rfl (Option.some.inj htarget)
      · exact h.graph.hit id name hknown
    · rw [known?_declare] at hknown
      split at hknown
      · exact (Prod.mk.inj (Option.some.inj hknown)).1 ▸ hfresh
      · exact h.graph.fresh id name target hknown

theorem unclaimed_eq {ref ref' : Reference} (hlink : ref'.link = ref.link) (name : Bytes)
    (scope : Nat) : unclaimed r'.graph name scope ref' = unclaimed r.graph name scope ref := by
  simp only [Reference.link, Prod.mk.injEq] at hlink
  obtain ⟨hscope, hread, hresolved, hpending⟩ := hlink
  rw [unclaimed, unclaimed, hscope, hread, hresolved, h.graph.within_eq]
  cases htarget : ref.resolved with
  | none =>
    rw [hresolved, htarget] at hpending
    rw [Option.some.inj hpending]
  | some id => simp

theorem claim (name : Bytes) : Aligned decl old word (r.claim name) (r'.claim name) where
  scopes := h.scopes
  graph := by
    refine h.graph.of_known (known?_claim r name) (known?_claim r' name) h.graph.scopes fun i => ?_
    simp only [link?, Resolver.claim, Array.getElem?_map, h.current, h.graph.size_vars]
    rcases same_view_cases (h.graph.references i) with ⟨hi, hi'⟩ | ⟨ref, ref', hi, hi', hlink⟩
    · rw [hi, hi']
      rfl
    · simp only [hi, hi', Option.map_some, h.unclaimed_eq hlink]
      split
      · simp only [Reference.link, Prod.mk.injEq] at hlink ⊢
        simp [hlink.1, hlink.2.1]
      · rw [hlink]

/-- A write to a name. A global that it declares is none of what is renamed. -/
theorem assign (hread : u'.usage.read = u.usage.read)
    (hlookup : r'.lookup? u'.name = r.lookup? u.name)
    (hname : r.lookup? u.name = none → u'.name = u.name) (hfresh : u.name ≠ word) :
    Aligned decl old word (r.assign u) (r'.assign u') := by
  have huse := h.use hread hlookup hname
  simp only [Resolver.assign, hlookup]
  cases hnone : r.lookup? u.name with
  | some id => exact huse
  | none =>
    simp only [hname hnone]
    refine (huse.declare ?_ hfresh fun hfalse => by cases hfalse).claim u.name
    rfl

end Aligned

end Resolver

/-! ## Runs -/

/-- A renaming of what is named at some places hits a declaration and what is bound to it, and
nothing else. The new name is not in use. -/
structure Hits (decl : Span) (old word : Bytes) (spans : List Span) (fs : List Frame)
    (es : List ScopeEvent) : Prop where
  /-- Of the occurrences those are hit that are bound to the declaration. -/
  uses : ∀ b ∈ Frame.occurrences fs es,
    b.use.start ∈ spans.map Span.start ↔ b.decl = some decl
  declarations : ∀ d, .declare d ∈ es → d.isSelf = false →
    (d.identifier.start ∈ spans.map Span.start ↔ d.identifier = decl)
  origin : ∀ d, .declare d ∈ es → d.identifier = decl → d.isSelf = false ∧ d.name = old
  undeclared : ∀ d, .declare d ∈ es → d.name ≠ word
  unused : ∀ e ∈ es, ∀ u, e.use? = some u → u.name ≠ word

namespace Hits

variable {decl : Span} {old word : Bytes} {spans : List Span} {fs : List Frame}
  {es : List ScopeEvent} {e : ScopeEvent} {offset : Nat → Nat}

theorem tail (h : Hits decl old word spans fs (e :: es)) :
    Hits decl old word spans (Frame.step fs e) es where
  uses b hb := h.uses b (mem_append_right _ hb)
  declarations d hd := h.declarations d (.tail _ hd)
  origin d hd := h.origin d (.tail _ hd)
  undeclared d hd := h.undeclared d (.tail _ hd)
  unused e he := h.unused e (.tail _ he)

theorem name_declare (h : Hits decl old word spans fs (.declare d :: es))
    (hold : old ≠ varargName) (hd : d.Becomes ⟨offset, Parser.respelt spans word⟩ d') :
    d'.name = renamed decl word (some d.identifier) d.name := by
  rcases hd with ⟨hself, hname⟩ | ⟨hkept, hname⟩
  · have hplace := h.declarations d mem_cons_self hself
    rw [hname]
    exact if_congr (hplace.trans (Option.some_inj).symm) rfl rfl
  · -- Neither a `self` nor a `...` is the declaration.
    rw [hname, renamed, if_neg]
    intro hdecl
    obtain ⟨hself, horigin⟩ := h.origin d mem_cons_self (Option.some.inj hdecl)
    rcases hkept with hkept | hkept
    · rw [hself] at hkept
      cases hkept
    · exact hold (horigin.symm.trans hkept)

variable {r r' : Resolver} {u u' : Use}

theorem name_use (h : Hits decl old word spans r.frames (e :: es)) (hvalid : r.Valid)
    (ha : r.Aligned decl old word r') (hold : old ≠ varargName) (he : e.use? = some u)
    (hu : u.Becomes ⟨offset, Parser.respelt spans word⟩ u') :
    u'.name = renamed decl word (r.graph.declarationOf? (r.lookup? u.name)) u.name := by
  have hplace : u.span.start ∈ spans.map Span.start ↔
      r.graph.declarationOf? (r.lookup? u.name) = some decl := by
    rw [← hvalid.target_frames]
    refine h.uses ⟨u.span, Frame.target r.frames u.name⟩ (mem_append_left _ ?_)
    rw [Frame.occurrence?_eq, he]
    exact mem_singleton_self _
  rcases hu.name with hname | ⟨hkept, hname⟩
  · rw [hname]
    exact if_congr hplace rfl rfl
  · rw [hname, renamed, if_neg]
    exact fun hdecl => hold ((ha.eq_old hdecl).symm.trans hkept)

theorem lookup?_use (h : Hits decl old word spans r.frames (e :: es)) (hvalid : r.Valid)
    (ha : r.Aligned decl old word r') (hold : old ≠ varargName) (hword : word ≠ varargName)
    (he : e.use? = some u) (hu : u.Becomes ⟨offset, Parser.respelt spans word⟩ u') :
    r'.lookup? u'.name = r.lookup? u.name ∧ (r.lookup? u.name = none → u'.name = u.name) := by
  have hname := h.name_use hvalid ha hold he hu
  refine ⟨ha.lookup?_eq hold hword (h.unused e mem_cons_self u he) hname, fun hnone => ?_⟩
  rw [hname, hnone]
  rfl

end Hits

/-- Events in step keep graphs aligned, if the one sequence comes from the other by a renaming that
hits a declaration and what is bound to it. -/
theorem InStep.aligned {decl : Span} {old word : Bytes} {spans : List Span}
    (hold : old ≠ varargName) (hword : word ≠ varargName) {es es' : List ScopeEvent}
    (h : InStep ⟨offset, Parser.respelt spans word⟩ es es') {r r' : Resolver}
    (hvalid : r.Valid) (ha : r.Aligned decl old word r')
    (hhits : Hits decl old word spans r.frames es) :
    (r.run es).Aligned decl old word (r'.run es') := by
  -- The frames show what a name is bound to at each event, and go along with the graph.
  have hrest : ∀ {r : Resolver} {e : ScopeEvent} {es : List ScopeEvent}, r.Valid →
      Hits decl old word spans r.frames (e :: es) →
      (r.step e).Valid ∧ Hits decl old word spans (r.step e).frames es := by
    intro r e es hvalid hhits
    have hstep := Resolver.simulates_step hvalid e
    exact ⟨hstep.valid, hstep.frames ▸ hhits.tail⟩
  induction h generalizing r r' with
  | nil => exact ha
  | enter _ ih =>
    obtain ⟨hvalid', hhits'⟩ := hrest hvalid hhits
    exact ih hvalid' (ha.enter _ _ _) hhits'
  | leave _ ih =>
    obtain ⟨hvalid', hhits'⟩ := hrest hvalid hhits
    exact ih hvalid' ha.leave hhits'
  | @declare d _ _ _ hd _ ih =>
    obtain ⟨hvalid', hhits'⟩ := hrest hvalid hhits
    refine ih hvalid' (ha.declare (hhits.name_declare hold hd) ?_ fun _ hdecl => ?_) hhits'
    · exact hhits.undeclared d mem_cons_self
    · exact (hhits.origin d mem_cons_self hdecl).2
  | use hu _ ih =>
    obtain ⟨hvalid', hhits'⟩ := hrest hvalid hhits
    obtain ⟨hlookup, hnone⟩ := hhits.lookup?_use hvalid ha hold hword rfl hu
    exact ih hvalid' (ha.use hu.read hlookup hnone) hhits'
  | @assign u _ _ _ hu _ ih =>
    obtain ⟨hvalid', hhits'⟩ := hrest hvalid hhits
    obtain ⟨hlookup, hnone⟩ := hhits.lookup?_use hvalid ha hold hword rfl hu
    refine ih hvalid' (ha.assign hu.read hlookup hnone ?_) hhits'
    exact hhits.unused _ mem_cons_self u rfl
  | extend hu _ ih =>
    obtain ⟨hvalid', hhits'⟩ := hrest hvalid hhits
    obtain ⟨hlookup, hnone⟩ := hhits.lookup?_use hvalid ha hold hword rfl hu
    have huse := ha.use hu.read hlookup hnone
    exact ih hvalid' (huse.shows (r.shows_extend _ _) (r'.shows_extend _ _)) hhits'
  | callBefore _ ih =>
    obtain ⟨hvalid', hhits'⟩ := hrest hvalid hhits
    exact ih hvalid' (ha.shows (r.shows_call _) (.refl r')) hhits'
  | callAfter _ ih => exact ih hvalid (ha.shows (.refl r) (r'.shows_call _)) hhits

/-! ## Parsed chunks -/

theorem Resolver.aligned_start (decl : Span) (old word : Bytes) :
    start.Aligned decl old word start where
  scopes := rfl
  graph := by
    have hknown : ∀ id, start.graph.known? id = none := fun _ => rfl
    exact ⟨fun _ => rfl, fun _ => rfl, fun _ => rfl, fun id name h => by simp [hknown] at h,
      fun id name target h => by simp [hknown] at h⟩

namespace Parser

variable {source word : Bytes} {chunk chunk' : Chunk} {v : Variable} {k : Nat}

theorem mention_ne (h : parse source = .ok chunk) (hword : IsName word)
    (hfresh : ∀ t ∈ Lexer.tokens source, t.kind = .name → t.text ≠ word) {m : Mention}
    (hm : m ∈ chunk.mentions) : m.name ≠ word := by
  intro hname
  obtain ⟨t, ht, hkind, htext, -⟩ := name_of_mention h hm (hname ▸ hword.ne_varargName)
  exact hfresh t ht hkind (htext.trans hname)

theorem hits_occurrences (h : parse source = .ok chunk) (hv : chunk.resolve.vars[k]? = some v)
    (hrename : v.isRenameable = true) (hword : IsName word) (hself : word ≠ "self")
    (hfresh : ∀ t ∈ Lexer.tokens source, t.kind = .name → t.text ≠ word) :
    Hits v.identifier v.name word (chunk.resolve.occurrences v) [] chunk.events := by
  obtain ⟨hvself, hhoisted, hname⟩ := Variable.isRenameable_iff.mp hrename
  obtain ⟨d₀, hd₀, hname₀, hident₀, hself₀⟩ := exists_declare hv hhoisted
  -- The places to rename are the occurrences of the declaration.
  have hstarts : ∀ start, start ∈ (chunk.resolve.occurrences v).map Span.start ↔
      ∃ place, chunk.Occurs d₀.identifier place ∧ place.start = start := by
    intro start
    simp only [mem_map, mem_occurrences_iff h hv hvself hhoisted, hident₀]
  rw [← hident₀]
  refine ⟨fun b hb => ?_, fun d hd hdself => ?_, fun d hd hident => ?_, fun d hd => ?_,
    fun e he u hu => ?_⟩
  · rw [hstarts]
    exact binding_occurs_iff h hd₀ (hself₀.trans hvself) (chunk.occurrences_events.mem_iff.mp hb)
  · rw [hstarts]
    exact declaration_occurs_iff h hd₀ hd hdself
  · obtain rfl := declare_unique h hd hd₀ (congrArg Span.start hident)
    exact ⟨hself₀.trans hvself, hname₀⟩
  · cases hdself : d.isSelf with
    | true =>
      rw [(Chunk.mention_of_self hd hdself).1]
      exact hself.symm
    | false =>
      obtain ⟨role, -, hmem⟩ := Chunk.mention_of_declare hd hdself
      exact mention_ne h hword hfresh hmem
  · obtain ⟨role, -, hmem⟩ := (ScopeEvent.namedIn_iff_of_use? hu).mp (chunk.named_events.names e he)
    exact mention_ne h hword hfresh hmem

/-- References to the renamed tree are resolved to the same variables. -/
theorem resolved_relocate (h : parse source = .ok chunk) (hv : chunk.resolve.vars[k]? = some v)
    (hrename : v.isRenameable = true) (hword : IsName word) (hself : word ≠ "self")
    (hfresh : ∀ t ∈ Lexer.tokens source, t.kind = .name → t.text ≠ word)
    (hblock : chunk'.block = chunk.block.relocate
      ⟨offset, respelt (chunk.resolve.occurrences v) word⟩) :
    chunk'.resolve.references.toList.map Reference.resolved =
      chunk.resolve.references.toList.map Reference.resolved := by
  have hevents : InStep ⟨offset, respelt (chunk.resolve.occurrences v) word⟩
      chunk.events chunk'.events := by
    rw [Chunk.events, Chunk.events, hblock]
    exact .scope .file _ _ (Block.inStep _ chunk.block)
  have hold := (Variable.isRenameable_iff.mp hrename).2.2
  have haligned := hevents.aligned hold hword.ne_varargName Resolver.valid_start
    (Resolver.aligned_start v.identifier v.name word)
    (hits_occurrences h hv hrename hword hself hfresh)
  refine ext_getElem? fun i => ?_
  have hlink := congrArg (Option.map fun link => link.2.2.1) (haligned.graph.references i)
  rw [link?, link?, Option.map_map, Option.map_map] at hlink
  rw [getElem?_map, getElem?_map, Array.getElem?_toList, Array.getElem?_toList]
  exact hlink

end Parser

end LuaLint
