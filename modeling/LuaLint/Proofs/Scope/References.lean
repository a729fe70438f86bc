import LuaLint.Proofs.Scope.Lexical

/-!
# The references of a chunk

Name resolution makes one reference for each name that is used, and none for any other name. While
it runs, a scope is open whenever one is needed, no two references are made at one place, and in the
end every scope is closed.

Main statements: `Parser.references_used`.
-/

namespace LuaLint

open List Resolver

/-! ## Events that find what they need -/

/-- An event finds what it needs: a scope that it can close or act in, and no reference at the
place where it makes one. -/
def Resolver.Accepts (r : Resolver) : ScopeEvent → Prop
  | .enter _ _ => True
  | .leave => r.scopes ≠ []
  | .declare _ => r.scopes ≠ []
  | .call _ => r.scopes ≠ []
  | .use u => r.scopes ≠ [] ∧ ∀ ref ∈ r.graph.references, ref.span ≠ u.span
  | .assign u => r.scopes ≠ [] ∧ ∀ ref ∈ r.graph.references, ref.span ≠ u.span
  | .extend u _ => r.scopes ≠ [] ∧ ∀ ref ∈ r.graph.references, ref.span ≠ u.span

theorem Resolver.starts_run (es : List ScopeEvent) :
    (start.run es).graph.references.toList.map (fun ref => ref.span.start) =
      es.filterMap (ScopeEvent.place? true) := by
  have hbindings : (start.run es).graph.bindings = Frame.occurrences [] es :=
    (simulates_run valid_start es).bindings
  rw [← Frame.map_start_occurrences [], ← hbindings, ScopeGraph.bindings, map_map]
  rfl

namespace Chunk

variable {c : Chunk} {before after : List ScopeEvent} {e : ScopeEvent}

theorem scopes_ne_nil (hsplit : c.events = before ++ e :: after) (hbefore : before ≠ []) :
    (start.run before).scopes ≠ [] := by
  obtain ⟨first, between, rfl⟩ := exists_cons_of_ne_nil hbefore
  injection hsplit with hfirst htail
  subst hfirst
  -- The last event is still to come, so that all events so far are those of the block.
  have hblock : ∃ more, c.block.events = between ++ more := by
    rcases append_eq_append_iff.mp htail with ⟨more, rfl, hmore⟩ | ⟨more, hmore, -⟩
    · rcases append_eq_singleton_iff.mp hmore.symm with ⟨rfl, -⟩ | ⟨-, hnil⟩
      · exact ⟨[], by simp⟩
      · cases hnil
    · exact ⟨more, hmore⟩
  obtain ⟨more, hmore⟩ := hblock
  have hopen := c.block.balanced.suffix_run (start.enter .file ⟨0, c.size⟩) hmore
  intro hnil
  have hfile : (start.enter .file ⟨0, c.size⟩).scopes <:+ [] := hnil ▸ hopen
  exact cons_ne_nil _ _ (suffix_nil.mp hfile)

theorem scopes_run_events (c : Chunk) : (start.run c.events).scopes = [] :=
  (c.block.balanced.scope .file ⟨0, c.size⟩).scopes_run start

end Chunk

namespace Parser

variable {source : Bytes} {chunk : Chunk}

theorem span_ne_of_use (h : parse source = .ok chunk) {before after : List ScopeEvent}
    {e : ScopeEvent} (hsplit : chunk.events = before ++ e :: after) {span : Span}
    (hplace : e.place? true = some span.start) :
    ∀ ref ∈ (start.run before).graph.references, ref.span ≠ span := by
  rintro ref href rfl
  have hnodup := nodup_places h true
  rw [hsplit, filterMap_append, filterMap_cons_some hplace] at hnodup
  have hmade : ref.span.start ∈ before.filterMap (ScopeEvent.place? true) := by
    rw [← starts_run]
    exact mem_map.mpr ⟨ref, Array.mem_toList_iff.mpr href, rfl⟩
  exact disjoint_of_nodup_append hnodup hmade (by simp)

theorem nodup_spans (h : parse source = .ok chunk) :
    (chunk.resolve.references.toList.map Reference.span).Nodup := by
  have hstarts : ((chunk.resolve.references.toList.map Reference.span).map Span.start).Nodup := by
    rw [map_map]
    exact starts_run chunk.events ▸ nodup_places h true
  exact hstarts.of_map

theorem accepts_of_split (h : parse source = .ok chunk) {before after : List ScopeEvent}
    {e : ScopeEvent} (hsplit : chunk.events = before ++ e :: after) :
    (start.run before).Accepts e := by
  by_cases hbefore : before = []
  · -- The first event opens the scope of the chunk.
    subst hbefore
    injection hsplit with hfirst
    subst hfirst
    trivial
  · have hopen := Chunk.scopes_ne_nil hsplit hbefore
    cases e with
    | enter kind span => trivial
    | leave => exact hopen
    | declare d => exact hopen
    | call c => exact hopen
    | use u => exact ⟨hopen, span_ne_of_use h hsplit rfl⟩
    | assign u => exact ⟨hopen, span_ne_of_use h hsplit rfl⟩
    | extend u definition => exact ⟨hopen, span_ne_of_use h hsplit rfl⟩

/-! ## References -/

/-- The references of a parsed chunk. The names of the chunk are all the names and `...` of its
source, in order. The references stand where names are used, once each, and a name has a reference
just when its role is to be used. Each event finds what it needs, and in the end no
scope is open. -/
theorem references_used (h : parse source = .ok chunk) :
    List.Forall₂ Mention.At chunk.mentions (Token.names (Lexer.codeTokens source)) ∧
    (chunk.resolve.references.toList.map Reference.span).Perm
      (chunk.mentions.filterMap Mention.use?) ∧
    (chunk.resolve.references.toList.map Reference.span).Nodup ∧
    (∀ m t, (m, t) ∈ chunk.mentions.zip (Token.names (Lexer.codeTokens source)) →
      ((∃ ref ∈ chunk.resolve.references, ref.span = ⟨t.pos, t.stop⟩) ↔ m.role.isUse = true)) ∧
    (∀ before e after, chunk.events = before ++ e :: after →
      (Resolver.start.run before).Accepts e) ∧
    (Resolver.start.run chunk.events).scopes = [] := by
  have hspelled := spelled_of_parse h
  have hordered := (nested_of_parse h).ordered
  have hperm : (chunk.resolve.references.toList.map Reference.span).Perm
      (chunk.mentions.filterMap Mention.use?) := by
    have hmap := chunk.bindings_resolve.map Binding.use
    rw [ScopeGraph.bindings, List.map_map] at hmap
    exact hmap.trans chunk.uses_bindings.places
  refine ⟨hspelled, hperm, nodup_spans h, fun m t hmem => ?_,
    fun before e after => accepts_of_split h, chunk.scopes_run_events⟩
  rw [← hspelled.mem_uses_iff hordered hmem, ← hperm.mem_iff, List.mem_map]
  simp only [Array.mem_toList_iff]

theorem references_used_roles :
    ∃ chunk, parse ("local a <const>, b = f for i = 1, b do a.x[i] = ... end " ++
        "function a.m:n(p) ::l:: goto l return p:q {k = 1} end" : Bytes) = .ok chunk ∧
      chunk.mentions.map Mention.role =
        [.initialised, .attribute, .declared, .value, .loopVariable, .value, .target, .field,
          .value, .value, .functionName, .field, .method, .parameter, .label, .label, .value,
          .method, .key] ∧
      chunk.resolve.references.toList.map (fun ref => ref.span.start) =
        [21, 6, 34, 27, 48, 39, 43, 65, 94] ∧
      (chunk.resolve.references.toList.map Reference.span).Perm
        (chunk.mentions.filterMap Mention.use?) ∧
      (Resolver.start.run chunk.events).scopes = [] := by
  refine exists_ok_and_and ⟨_, rfl, rfl, rfl⟩ fun _ hparse _ => ?_
  obtain ⟨-, hperm, -, -, -, hclosed⟩ := references_used hparse
  exact ⟨hperm, hclosed⟩

end Parser

end LuaLint
