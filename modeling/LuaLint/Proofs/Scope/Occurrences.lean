import LuaLint.Editor.Symbol
import LuaLint.Proofs.Lexing.Respelling
import LuaLint.Proofs.Scope.Links
import LuaLint.Proofs.Scope.Names

/-!
# The occurrences of a variable

A declaration is named at its own place and at those of the occurrences that are bound to it. All of
these are tokens that spell the name of the declaration, and in the order of the source they are
what the scope graph lists for the variable.

Main statements: `Parser.binding_occurs_iff`, `Parser.mem_occurrences_iff`,
`Parser.sublist_occurrences`.
-/

namespace LuaLint

open List Lexer

/-! ## Names and what they are bound to -/

namespace Frame

variable {fs : List Frame} {es : List ScopeEvent} {name : Bytes} {decl : Span}

theorem occurrence?_eq (fs : List Frame) (e : ScopeEvent) :
    occurrence? fs e = e.use?.map fun u => ⟨u.span, target fs u.name⟩ := by
  cases e <;> rfl

/-- A declaration is known under a name in one of the open scopes. -/
def Knows (fs : List Frame) (name : Bytes) (decl : Span) : Prop :=
  ∃ f ∈ fs, (name, some decl) ∈ f.entries

theorem knows_of_target (h : target fs name = some decl) : Knows fs name decl := by
  induction fs with
  | nil => cases h
  | cons f outer ih =>
    rw [target, lookup?] at h
    split at h
    · rename_i entry hentry
      have hname : entry.1 = name := by simpa using find?_some hentry
      have hdecl : entry.2 = some decl := h
      exact ⟨f, by simp, hname ▸ hdecl ▸ mem_of_find?_eq_some hentry⟩
    · split at h
      · cases h
      · obtain ⟨f', hf', hentry⟩ := ih h
        exact ⟨f', .tail _ hf', hentry⟩

theorem knows_insert {entry : Bytes × Option Span} (h : Knows (insert entry fs) name decl) :
    entry = (name, some decl) ∨ Knows fs name decl := by
  obtain ⟨f, hf, hentry⟩ := h
  cases fs with
  | nil => cases hf
  | cons g outer =>
    rcases mem_cons.mp hf with rfl | hf
    · rcases mem_cons.mp hentry with heq | hentry
      · exact .inl heq.symm
      · exact .inr ⟨g, by simp, hentry⟩
    · exact .inr ⟨f, .tail _ hf, hentry⟩

theorem knows_step {e : ScopeEvent} (h : Knows (step fs e) name decl) :
    Knows fs name decl ∨ ∃ d, e = .declare d ∧ d.name = name ∧ d.identifier = decl := by
  cases e with
  | declare d =>
    rcases knows_insert h with heq | h
    · obtain ⟨hname, hdecl⟩ := Prod.mk.inj heq
      exact .inr ⟨d, rfl, hname, Option.some.inj hdecl⟩
    · exact .inl h
  | enter kind span =>
    obtain ⟨f, hf, hentry⟩ := h
    rcases mem_cons.mp hf with rfl | hf
    · cases hentry
    · exact .inl ⟨f, hf, hentry⟩
  | leave =>
    obtain ⟨f, hf, hentry⟩ := h
    exact .inl ⟨f, mem_of_mem_tail hf, hentry⟩
  | assign u =>
    simp only [step] at h
    split at h
    · rcases knows_insert h with heq | h
      · cases (Prod.mk.inj heq).2
      · exact .inl h
    · exact .inl h
  | use u => exact .inl h
  | extend u definition => exact .inl h
  | call c => exact .inl h

theorem exists_use_of_mem_occurrences {b : Binding} (hb : b ∈ occurrences fs es) :
    ∃ e ∈ es, ∃ u, e.use? = some u ∧ u.span = b.use ∧ ∀ decl, b.decl = some decl →
      Knows fs u.name decl ∨ ∃ d, .declare d ∈ es ∧ d.name = u.name ∧ d.identifier = decl := by
  induction es generalizing fs with
  | nil => cases hb
  | cons e es ih =>
    rw [occurrences, mem_append, occurrence?_eq] at hb
    rcases hb with hb | hb
    · obtain ⟨u, hu, rfl⟩ := Option.map_eq_some_iff.mp (Option.mem_toList.mp hb)
      exact ⟨e, by simp, u, hu, rfl, fun decl hdecl => .inl (knows_of_target hdecl)⟩
    · obtain ⟨e', he', u, hu, hspan, hknown⟩ := ih hb
      refine ⟨e', .tail _ he', u, hu, hspan, fun decl hdecl => ?_⟩
      rcases hknown decl hdecl with hknows | ⟨d, hd, hname, hplace⟩
      · rcases knows_step hknows with hknows | ⟨d, rfl, hname, hplace⟩
        · exact .inl hknows
        · exact .inr ⟨d, by simp, hname, hplace⟩
      · exact .inr ⟨d, .tail _ hd, hname, hplace⟩

end Frame

/-! ## Places of a declaration -/

theorem nodup_eraseDups {α : Type} [BEq α] [LawfulBEq α] : ∀ l : List α, l.eraseDups.Nodup
  | [] => nodup_nil
  | a :: l => by
    rw [eraseDups_cons, nodup_cons, mem_eraseDups]
    exact ⟨by simp, nodup_eraseDups _⟩
termination_by l => l.length
decreasing_by exact Nat.lt_succ_of_le (length_filter_le _ _)

theorem Variable.isRenameable_iff {v : Variable} :
    v.isRenameable = true ↔ v.isSelf = false ∧ v.hoisted = false ∧ v.name ≠ varargName := by
  simp [isRenameable, and_assoc]

/-- A declaration is named at a place: it stands there, or what stands there is bound to it. -/
def Chunk.Occurs (c : Chunk) (decl place : Span) : Prop := place = decl ∨ c.Binds place (some decl)

namespace Parser

variable {source : Bytes} {chunk : Chunk} {d : Declaration} {place : Span}

theorem mention_of_occurs (h : parse source = .ok chunk) (hd : .declare d ∈ chunk.events)
    (hself : d.isSelf = false) (hplace : chunk.Occurs d.identifier place) :
    ∃ role, (role.isUse || role.isDeclaration) = true ∧ ⟨role, d.name, place⟩ ∈ chunk.mentions := by
  rcases hplace with rfl | hbinds
  · obtain ⟨role, hrole, hmem⟩ := Chunk.mention_of_declare hd hself
    exact ⟨role, Bool.or_eq_true_iff.mpr (.inr hrole), hmem⟩
  · obtain ⟨e, he, u, hu, rfl, hknown⟩ :=
      Frame.exists_use_of_mem_occurrences (chunk.occurrences_events.mem_iff.mpr hbinds)
    rcases hknown d.identifier rfl with ⟨f, hf, -⟩ | ⟨d', hd', hname, hident⟩
    · cases hf
    · -- The name was declared as the one that it is bound to.
      obtain rfl := declare_unique h hd' hd (congrArg Span.start hident)
      obtain ⟨role, hrole, hmem⟩ :=
        (ScopeEvent.namedIn_iff_of_use? hu).mp (chunk.named_events.names e he)
      exact ⟨role, Bool.or_eq_true_iff.mpr (.inl hrole), hname ▸ hmem⟩

theorem kind_of_names {t : Token} (ht : t ∈ Token.names (codeTokens source)) :
    t.kind = .name ∨ t.kind = .sign .ellipsis ∧ t.text = varargName := by
  obtain ⟨hcode, hmention⟩ := mem_filter.mp ht
  cases hk : t.kind with
  | name => exact .inl rfl
  | sign s =>
    cases s with
    | ellipsis =>
      have hfixed := (lawful_of_mem hcode).fixed (by rw [hk]; trivial)
      rw [hk] at hfixed
      exact .inr ⟨rfl, hfixed⟩
    | _ => simp [hk, TokenKind.isMention] at hmention
  | _ => simp [hk, TokenKind.isMention] at hmention

section

variable (h : parse source = .ok chunk)
include h

theorem name_of_mention {m : Mention} (hm : m ∈ chunk.mentions) (hname : m.name ≠ varargName) :
    ∃ t ∈ tokens source, t.kind = .name ∧ t.text = m.name ∧ t.extent = m.span := by
  obtain ⟨t, ht, htext, hspan⟩ := exists_token_of_mention h hm
  have hkind := (kind_of_names ht).resolve_right fun hdots => hname (htext.trans hdots.2)
  refine ⟨t, mem_of_mem_filter (mem_of_mem_filter ht), hkind, htext.symm, ?_⟩
  rw [Token.extent, ← Token.text_eq_lexeme (Token.isProper_of_name hkind), hspan]
  rfl

/-- Each place is that of a token. -/
theorem token_of_occurs (hd : .declare d ∈ chunk.events) (hself : d.isSelf = false)
    (hname : d.name ≠ varargName) (hplace : chunk.Occurs d.identifier place) :
    ∃ t ∈ tokens source, t.kind = .name ∧ t.extent = place := by
  obtain ⟨role, -, hmem⟩ := mention_of_occurs h hd hself hplace
  obtain ⟨t, ht, hkind, -, hextent⟩ := name_of_mention h hmem hname
  exact ⟨t, ht, hkind, hextent⟩

/-- A use is at one of the places just when it is bound to the declaration. -/
theorem binding_occurs_iff (hd : .declare d ∈ chunk.events) (hself : d.isSelf = false)
    {b : Binding} (hb : b ∈ chunk.bindings) :
    (∃ place, chunk.Occurs d.identifier place ∧ place.start = b.use.start) ↔
      b.decl = some d.identifier := by
  constructor
  · rintro ⟨place, rfl | hbinds, hstart⟩
    · exact use_of_declaration h hd hself hb hstart.symm
    · have hsame : (⟨place, some d.identifier⟩ : Binding) = b :=
        binding_unique h hbinds hb hstart
      rw [← hsame]
  · intro hdecl
    refine ⟨b.use, .inr ?_, rfl⟩
    rw [← hdecl]
    exact hb

/-- No other declaration is at one of the places. -/
theorem declaration_occurs_iff (hd : .declare d ∈ chunk.events) {d' : Declaration}
    (hd' : .declare d' ∈ chunk.events) (hself' : d'.isSelf = false) :
    (∃ place, chunk.Occurs d.identifier place ∧ place.start = d'.identifier.start) ↔
      d'.identifier = d.identifier := by
  constructor
  · rintro ⟨place, rfl | hbinds, hstart⟩
    · rw [declare_unique h hd hd' hstart]
    · exact (Option.some.inj (use_of_declaration h hd' hself' hbinds hstart)).symm
  · exact fun hplace => ⟨d.identifier, .inl rfl, by rw [hplace]⟩

end

/-! ## What a graph lists -/

variable {v : Variable} {k : Nat}

theorem exists_declare (hv : chunk.resolve.vars[k]? = some v) (hhoisted : v.hoisted = false) :
    ∃ d, .declare d ∈ chunk.events ∧ d.name = v.name ∧ d.identifier = v.identifier ∧
      d.isSelf = v.isSelf := by
  have horigin : (v.name, v.identifier, v.isSelf) ∈ chunk.resolve.origins := by
    refine mem_filterMap.mpr ⟨v, Array.mem_toList_iff.mpr (Array.mem_of_getElem? hv), ?_⟩
    simp [Variable.origin?, Variable.declaration?, hhoisted]
  rw [chunk.origins_resolve, mem_filterMap] at horigin
  obtain ⟨e, he, horigin⟩ := horigin
  cases e with
  | declare d =>
    obtain ⟨hname, hrest⟩ := Prod.mk.inj (Option.some.inj horigin)
    exact ⟨d, he, hname, Prod.mk.inj hrest⟩
  | _ => cases horigin

variable (h : parse source = .ok chunk)
include h

theorem binds_variable_iff (hv : chunk.resolve.vars[k]? = some v) (hhoisted : v.hoisted = false)
    (place : Span) : chunk.Binds place (some v.identifier) ↔
      ∃ ref ∈ chunk.resolve.references, ref.resolved = some k ∧ ref.span = place := by
  have hdecl : v.declaration? = some v.identifier :=
    Variable.declaration?_eq_some.mpr ⟨hhoisted, rfl⟩
  constructor
  · intro hbinds
    obtain ⟨ref, href, heq⟩ := mem_map.mp (chunk.bindings_resolve.mem_iff.mpr hbinds)
    obtain ⟨hspan, htarget⟩ := Binding.mk.inj heq
    obtain ⟨id, w, hid, hw, hdecl'⟩ := ScopeGraph.declarationOf?_eq_some.mp htarget
    exact ⟨ref, Array.mem_toList_iff.mp href, variable_unique h hw hv hdecl' hdecl ▸ hid, hspan⟩
  · rintro ⟨ref, href, hid, rfl⟩
    refine (binds_iff h href _).mpr (Eq.symm ?_)
    exact ScopeGraph.declarationOf?_eq_some.mpr ⟨k, v, hid, hv, hdecl⟩

/-- The graph lists just these places. -/
theorem mem_occurrences_iff (hv : chunk.resolve.vars[k]? = some v) (hself : v.isSelf = false)
    (hhoisted : v.hoisted = false) :
    place ∈ chunk.resolve.occurrences v ↔ chunk.Occurs v.identifier place := by
  have hused : place ∈ (v.references.filterMap fun id =>
      (chunk.resolve.references[id]?).map Reference.span) ↔
      ∃ ref ∈ chunk.resolve.references, ref.resolved = some k ∧ ref.span = place := by
    rw [chunk.linked_resolve.occurrences k v hv, mem_filterMap]
    constructor
    · rintro ⟨id, hid, hplace⟩
      obtain ⟨ref, href, hresolved⟩ := mem_numbers.mp hid
      rw [href] at hplace
      exact ⟨ref, Array.mem_of_getElem? href, beq_iff_eq.mp hresolved, Option.some.inj hplace⟩
    · rintro ⟨ref, href, hresolved, rfl⟩
      obtain ⟨id, hid⟩ := Array.mem_iff_getElem?.mp href
      exact ⟨id, mem_numbers.mpr ⟨ref, hid, beq_iff_eq.mpr hresolved⟩, by rw [hid]; rfl⟩
  rw [Chunk.Occurs, binds_variable_iff h hv hhoisted, ← hused]
  simp [ScopeGraph.occurrences, hself]

theorem token_of_mem_occurrences (hv : chunk.resolve.vars[k]? = some v)
    (hrename : v.isRenameable = true) (hplace : place ∈ chunk.resolve.occurrences v) :
    ∃ t ∈ tokens source, t.kind = .name ∧ t.extent = place := by
  obtain ⟨hself, hhoisted, hname⟩ := Variable.isRenameable_iff.mp hrename
  obtain ⟨d, hd, hdname, hident, hdself⟩ := exists_declare hv hhoisted
  rw [mem_occurrences_iff h hv hself hhoisted, ← hident] at hplace
  exact token_of_occurs h hd (hdself.trans hself) (hdname ▸ hname) hplace

/-- It lists them in the order of the source. -/
theorem sublist_occurrences (hv : chunk.resolve.vars[k]? = some v)
    (hrename : v.isRenameable = true) :
    (chunk.resolve.occurrences v).Sublist (nameExtents (tokens source)) := by
  have htoken : ∀ place ∈ chunk.resolve.occurrences v,
      ∃ t ∈ tokens source, t.kind = .name ∧ t.extent = place := fun _ =>
    token_of_mem_occurrences h hv hrename
  have hnodup : (chunk.resolve.occurrences v).Nodup :=
    (mergeSort_perm _ _).nodup_iff.mpr (nodup_eraseDups _)
  have hsorted : (chunk.resolve.occurrences v).Pairwise fun a b => a.start ≤ b.start := by
    refine (pairwise_mergeSort ?_ ?_ _).imp of_decide_eq_true
    · simpa using fun a b c : Span => Nat.le_trans
    · simpa using fun a b : Span => Nat.le_total a.start b.start
  -- Two of them that begin at one place are the same token.
  have hordered : (chunk.resolve.occurrences v).Pairwise fun a b => a.start < b.start := by
    refine (hsorted.and hnodup).imp_of_mem fun {a b} ha hb ⟨hle, hne⟩ => ?_
    refine Nat.lt_of_le_of_ne hle fun hstart => hne ?_
    obtain ⟨t, ht, -, rfl⟩ := htoken a ha
    obtain ⟨u, hu, -, rfl⟩ := htoken b hb
    rw [pos_inj ht hu hstart]
  have hextents : (nameExtents (tokens source)).Pairwise fun a b => a.start < b.start :=
    pairwise_map.mpr ((tiles_tokens source).pos_lt.filter _)
  have : Std.Antisymm fun a b : Span => a.start < b.start :=
    ⟨fun _ _ hab hba => absurd hab (Nat.lt_asymm hba)⟩
  refine sublist_of_subperm_of_pairwise (subperm_of_subset hnodup ?_) hordered hextents
  intro place hplace
  obtain ⟨t, ht, hkind, rfl⟩ := htoken place hplace
  exact mem_map_of_mem (mem_filter.mpr ⟨ht, decide_eq_true hkind⟩)

end Parser

end LuaLint
