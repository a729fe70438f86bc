import LuaLint.Proofs.Scope.Constructs
import LuaLint.Proofs.Scope.Records

/-!
# The ranges in a scope graph

Every range that name resolution records covers a run of tokens: names stand at tokens, a definition
covers the construct that makes it, and a call the path of what is called. The name that is declared
stands within its definition.

Main statements: `Parser.runs_reference`, `Parser.runs_variable`, `Parser.runs_call`.
-/

namespace LuaLint

open Lexer

variable {definition : Span} {e : ScopeEvent} {d : Declaration}

/-- The definition of a name covers a run of the tokens of the statement, and the name does not
stand before it. -/
theorem Reads.runs_definition {s : Stmt} {ts : List Token} (h : Reads (.stmt s) ts)
    (hts : Ordered ts) {i : Ident} (hdef : s.Defines i definition) :
    Runs ts definition ∧ definition.start ≤ i.pos := by
  cases hdef with
  | whole hi => exact ⟨h.over_stmt.runs, Nat.le_of_lt (h.localName_pos hts i hi).2⟩
  | counter =>
    -- The definition begins with the variable and ends with the first value.
    have hpart : ∀ (v a : Token) {first : Expr} {fs : List Token}, Reads (.expr first) fs →
        Runs ([v] ++ ([a] ++ fs)) ⟨v.pos, first.stop⟩ := fun v a _ _ hfirst =>
      Span.Over.runs ⟨(Starts.single v).append _, (hfirst.over_expr.2.append [a]).append [v]⟩
    refine ⟨?_, Nat.le_refl _⟩
    cases h with
    | @countingFor t v a c d e first limit ss fs ls ts _ _ _ hfirst _ _ _ _ _ =>
      exact (hpart v a hfirst).widen ⟨[t], [c] ++ ls ++ [d] ++ ts ++ [e], by simp⟩
    | @steppingFor t v a c c' d e first limit step ss fs ls ps ts _ _ _ hfirst _ _ _ _ _ _ _ =>
      exact (hpart v a hfirst).widen ⟨[t], [c] ++ ls ++ [c'] ++ ps ++ [d] ++ ts ++ [e], by simp⟩

namespace Parser

variable {source : Bytes} {chunk : Chunk}

variable (h : parse source = .ok chunk)
include h

theorem runs_mention {m : Mention} (hm : m ∈ chunk.mentions) :
    Runs (codeTokens source) m.span := by
  obtain ⟨t, ht, -, hspan⟩ := exists_token_of_mention h hm
  exact hspan ▸ .of_mem (List.mem_filter.mp ht).1

theorem runs_use (he : e ∈ chunk.events) {u : Use} (hu : e.use? = some u) :
    Runs (codeTokens source) u.span := by
  obtain ⟨role, -, hm⟩ := (ScopeEvent.namedIn_iff_of_use? hu).mp (chunk.named_events.names e he)
  exact runs_mention h hm

theorem runs_identifier (hd : .declare d ∈ chunk.events) :
    Runs (codeTokens source) d.identifier := by
  cases hself : d.isSelf with
  | true =>
    obtain ⟨-, name, hm⟩ := Chunk.mention_of_self hd hself
    exact runs_mention h hm
  | false =>
    obtain ⟨role, -, hm⟩ := Chunk.mention_of_declare hd hself
    exact runs_mention h hm

theorem runs_declaration (hd : .declare d ∈ chunk.events) :
    Runs (codeTokens source) d.definition ∧ d.definition.start ≤ d.identifier.start := by
  rcases (chunk.arises hd).definedIn with heq | ⟨s, i, hs, hdef, hident⟩
  · rw [heq]
    exact ⟨runs_identifier h hd, Nat.le_refl _⟩
  · obtain ⟨run, hrun, hread⟩ := sited_nodes h _ hs
    have hread : Reads (.stmt s) run := hread
    obtain ⟨hruns, hle⟩ := hread.runs_definition ((nested_of_parse h).ordered.narrow hrun) hdef
    rw [hident]
    exact ⟨hruns.widen hrun, hle⟩

theorem runs_definition (he : e ∈ chunk.events) (hdef : e.definition? = some definition) :
    Runs (codeTokens source) definition := by
  cases e with
  | declare d =>
    cases hdef
    exact (runs_declaration h he).1
  | assign u =>
    cases hdef
    exact runs_use h he rfl
  | extend u _ =>
    cases hdef
    cases chunk.arises he with
    | @fieldName pos n body hs =>
      obtain ⟨run, hrun, hread⟩ := sited_nodes h _ hs
      cases hread with
      | @functionStmt t _ _ ns ts _ hname _ =>
        have hover : n.span.Over ns := hname.ends
        exact (hover.runs.within [t] ts).widen hrun
  | enter kind span => cases hdef
  | leave => cases hdef
  | use u => cases hdef
  | call c => cases hdef

/-- A reference covers tokens. -/
theorem runs_reference {ref : Reference} (href : ref ∈ chunk.resolve.references) :
    Runs (codeTokens source) ref.span := by
  obtain ⟨e, he, huse⟩ := Chunk.exists_use_of_reference href
  exact runs_use h he huse

/-- The name of a variable and all its definitions cover runs, and the name does not begin before
its first definition. -/
theorem runs_variable {v : Variable} (hv : v ∈ chunk.resolve.vars) :
    Runs (codeTokens source) v.identifier ∧
      (∀ definition ∈ v.definitions, Runs (codeTokens source) definition) ∧
      ∃ definition, v.definitions.head? = some definition ∧
        definition.start ≤ v.identifier.start := by
  obtain ⟨⟨e, he, d, hd, hident, -, hhead⟩, hdefined, -⟩ := chunk.records_resolve.vars v hv
  have hname : Runs (codeTokens source) d.identifier ∧
      d.definition.start ≤ d.identifier.start := by
    cases e with
    | declare d =>
      cases hd
      exact ⟨runs_identifier h he, (runs_declaration h he).2⟩
    | assign u =>
      cases hd
      exact ⟨runs_use h he rfl, Nat.le_refl _⟩
    | _ => cases hd
  rw [hident]
  refine ⟨hname.1, fun definition hmem => ?_, d.definition, hhead, hname.2⟩
  obtain ⟨e, he, hdef⟩ := hdefined definition hmem
  exact runs_definition h he hdef

/-- A call covers tokens. -/
theorem runs_call {c : CallRecord} (hc : c ∈ chunk.resolve.calls) :
    Runs (codeTokens source) c.span := by
  obtain ⟨e, he, hspan⟩ := chunk.records_resolve.calls c hc
  rw [hspan]
  cases chunk.arises he with
  | @call callee method form args _ hs hmem =>
    obtain ⟨run, hrun, hread⟩ := sited_nodes h _ hs
    cases hread with
    | callStmt hcall =>
      obtain ⟨part, rest, rfl, hover, -⟩ :=
        Reads.call_parts (c := ⟨callee, method, form, args⟩) hcall
      unfold Call.events at hmem
      split at hmem
      · cases List.mem_singleton.mp hmem
        exact (hover.runs.within [] rest).widen hrun
      · cases hmem

end Parser

end LuaLint
