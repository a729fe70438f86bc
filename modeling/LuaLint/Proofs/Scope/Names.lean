import LuaLint.Proofs.Scope.References

/-!
# The names of a parsed chunk

In a parsed chunk one name stands at a place, and one declaration. A name that is declared and used
at once is one that takes a value where it is declared, and the use refers to the declaration.

Main statements: `Parser.mention_unique`, `Parser.declare_unique`, `Parser.use_of_declaration`.
-/

namespace LuaLint

theorem IsName.ne_varargName {word : Bytes} (h : IsName word) : word ≠ varargName := by
  rintro rfl
  exact absurd (h.chars 46 (by decide)) (by decide)

namespace Chunk

theorem mention_of_declare {c : Chunk} {d : Declaration} (hd : .declare d ∈ c.events)
    (hself : d.isSelf = false) :
    ∃ role, role.isDeclaration = true ∧ ⟨role, d.name, d.identifier⟩ ∈ c.mentions := by
  simpa [ScopeEvent.NamedIn, hself] using c.named_events.names _ hd

theorem mention_of_self {c : Chunk} {d : Declaration} (hd : .declare d ∈ c.events)
    (hself : d.isSelf = true) : d.name = "self" ∧ ∃ name, ⟨.method, name, d.identifier⟩ ∈
      c.mentions := by
  simpa [ScopeEvent.NamedIn, hself] using c.named_events.names _ hd

end Chunk

namespace Parser

variable {source : Bytes} {chunk : Chunk}

variable (h : parse source = .ok chunk)
include h

theorem exists_token_of_mention {m : Mention} (hm : m ∈ chunk.mentions) :
    ∃ t ∈ Token.names (Lexer.codeTokens source), m.At t := by
  obtain ⟨t, hmem⟩ := (spelled_of_parse h).exists_token hm
  exact ⟨t, (List.of_mem_zip hmem).2, (spelled_of_parse h).at_of_mem_zip hmem⟩

/-- One name stands at a place. -/
theorem mention_unique {m m' : Mention} (hm : m ∈ chunk.mentions) (hm' : m' ∈ chunk.mentions)
    (hstart : m.span.start = m'.span.start) : m = m' := by
  have hspelled := spelled_of_parse h
  obtain ⟨t, hmem⟩ := hspelled.exists_token hm
  obtain ⟨t', hmem'⟩ := hspelled.exists_token hm'
  rw [(hspelled.at_of_mem_zip hmem).2, (hspelled.at_of_mem_zip hmem').2] at hstart
  exact hspelled.unique (nested_of_parse h).ordered hmem hmem' hstart

/-- One declaration stands at a place. -/
theorem declare_unique {d d' : Declaration} (hd : .declare d ∈ chunk.events)
    (hd' : .declare d' ∈ chunk.events) (hstart : d.identifier.start = d'.identifier.start) :
    d = d' := by
  obtain ⟨i, hi⟩ := List.mem_iff_getElem?.mp hd
  obtain ⟨j, hj⟩ := List.mem_iff_getElem?.mp hd'
  have hplace : (ScopeEvent.declare d').place? false = some d.identifier.start := by
    rw [hstart]
    rfl
  have hij := getElem?_unique_of_nodup_filterMap (nodup_places h false) hi hj rfl hplace
  rw [hij, hj] at hi
  cases hi
  rfl

/-- A use at the place of a declaration refers to it. -/
theorem use_of_declaration {d : Declaration} (hd : .declare d ∈ chunk.events)
    (hself : d.isSelf = false) {b : Binding} (hb : b ∈ chunk.bindings)
    (hstart : b.use.start = d.identifier.start) : b.decl = some d.identifier := by
  obtain ⟨role, hrole, hdeclared⟩ := Chunk.mention_of_declare hd hself
  obtain ⟨m, hm, huse⟩ := List.mem_filterMap.mp
    (chunk.uses_bindings.places.mem_iff.mp (List.mem_map_of_mem hb))
  obtain ⟨hused, hspan⟩ := Mention.use?_eq_some.mp huse
  -- The name that is used is the one that is declared, so that it has both roles.
  obtain rfl := mention_unique h hm hdeclared (hspan ▸ hstart)
  have hown : (⟨d.identifier, some d.identifier⟩ : Binding) ∈ chunk.bindings :=
    chunk.uses_bindings.own _ hdeclared (by simpa [NameRole.isOwn, hrole] using hused)
  exact binds_unique h (show chunk.Binds b.use b.decl from hb) (hspan ▸ hown)

end Parser

end LuaLint
