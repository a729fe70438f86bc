import LuaLint.Editor.Document
import LuaLint.Proofs.Editor.Positions
import LuaLint.Proofs.Scope.Renaming

/-!
# Renaming in an editor

The edits with which an editor renames a variable leave a document that is parsed to the same tree
but for the names at the edits, and in which every name is resolved as before.

Main statements: `Document.rename_eq_ok`, `Document.rename_keeps_bindings`.
-/

namespace LuaLint

open List EditorRange

variable {source : Bytes} {t : Token} {v : Variable} {d : Document}

/-! ## Ranges of names -/

def EditorRange.span (content : Bytes) (range : EditorRange) : Span :=
  ⟨range.start.offset content, range.stop.offset content⟩

/-- A document after some ranges of it are replaced by a word. All of the ranges are those of the
document as it was, so that the last one is replaced first. -/
def EditorRange.replaceAll (content word : Bytes) (ranges : List EditorRange) : Bytes :=
  Bytes.splice word (ranges.map (EditorRange.span content)) content

theorem Lexer.isName_lexeme (ht : t ∈ tokens source) (hkind : t.kind = .name) :
    IsName t.lexeme := by
  obtain ⟨init, e, htokens, heof, hinit⟩ := (tiles_tokens source).ends
  rw [htokens, mem_append, mem_singleton] at ht
  rcases ht with ht | rfl
  · have hlexeme := (hinit t ht).1
    rwa [hkind] at hlexeme
  · simp [heof] at hkind

theorem EditorRange.span_ofSpan_extent (ht : t ∈ Lexer.tokens source) :
    (ofSpan source t.extent).span source = t.extent := by
  obtain ⟨⟨_, hstart⟩, ⟨_, hstop⟩⟩ := EditorPosition.boundary_token ht
  simp only [span, ofSpan, ofLabel, Label.ofSpan,
    hstart.offset_ofOffset, hstop.offset_ofOffset]

namespace Parser

variable {source : Bytes} {chunk : Chunk} {k : Nat} {v : Variable}

theorem map_span_occurrences (h : parse source = .ok chunk)
    (hv : chunk.resolve.vars[k]? = some v) (hrename : v.isRenameable = true) :
    ((chunk.resolve.occurrences v).map (ofSpan source)).map (span source) =
      chunk.resolve.occurrences v := by
  rw [map_map]
  refine (map_congr_left fun place hplace => ?_).trans (map_id _)
  obtain ⟨t, ht, hkind, rfl⟩ := token_of_mem_occurrences h hv hrename hplace
  exact span_ofSpan_extent ht

theorem placed_occurrences (h : parse source = .ok chunk)
    (hv : chunk.resolve.vars[k]? = some v) (hrename : v.isRenameable = true) :
    ∀ place ∈ chunk.resolve.occurrences v, ∃ m ∈ chunk.mentions, m.span = place ∧
      (m.role.isUse || m.role.isDeclaration) = true := by
  intro place hplace
  obtain ⟨hself, hhoisted, -⟩ := Variable.isRenameable_iff.mp hrename
  obtain ⟨d, hd, -, hident, hdself⟩ := exists_declare hv hhoisted
  rw [mem_occurrences_iff h hv hself hhoisted, ← hident] at hplace
  obtain ⟨role, hrole, hmem⟩ := mention_of_occurs h hd (hdself.trans hself) hplace
  exact ⟨_, hmem, rfl, hrole⟩

theorem moves_occurrences (h : parse source = .ok chunk)
    (hv : chunk.resolve.vars[k]? = some v) (hrename : v.isRenameable = true) (size : Nat) :
    Moves (chunk.resolve.occurrences v) size (Span.shift (chunk.resolve.occurrences v) size) := by
  refine moves_shift size (fun place hplace => ?_) ?_
  · obtain ⟨t, ht, hkind, rfl⟩ := token_of_mem_occurrences h hv hrename hplace
    exact Nat.lt_add_of_pos_right (length_pos_iff.mpr (Lexer.isName_lexeme ht hkind).ne_nil)
  · refine Pairwise.sublist (sublist_occurrences h hv hrename) ?_
    exact pairwise_map.mpr ((Lexer.tiles_tokens source).ordered.filter _)

end Parser

/-! ## The variable at a position -/

theorem isName_of_isIdentifier {name : Bytes} (h : isIdentifier name = true) : IsName name := by
  unfold isIdentifier at h
  rw [Bool.and_eq_true, beq_iff_eq] at h
  obtain ⟨hkind, hchars⟩ := h
  have hkeyword : Keyword.ofName? name = none := by
    cases hword : Keyword.ofName? name with
    | none => rfl
    | some word => simp [TokenKind.ofName, hword] at hkind
  cases name with
  | nil => cases hchars
  | cons first rest =>
    rw [Bool.and_eq_true, all_eq_true] at hchars
    refine ⟨⟨first, rest, rfl, hchars.1⟩, ?_, hkeyword⟩
    rw [forall_mem_cons]
    exact ⟨by simp [Ascii.isName, hchars.1], hchars.2⟩

theorem ScopeGraph.exists_of_symbolAt? {g : ScopeGraph} {off : Int} {symbol : EditorSymbol}
    (h : g.symbolAt? off = some symbol) (hv : symbol.target = some v) :
    ∃ k : Nat, g.vars[k]? = some v := by
  rw [symbolAt?, Option.or_eq_some_iff] at h
  rcases h with h | ⟨-, h⟩
  · obtain ⟨ref, -, href⟩ := exists_of_findSome?_eq_some h
    rw [referenceSymbol?] at href
    split at href
    · cases href
      obtain ⟨k, -, hk⟩ := Option.bind_eq_some_iff.mp hv
      exact ⟨k, hk⟩
    · split at href
      · cases href
      · -- A field of a global stands for no variable.
        simp only [indexSymbol?, Option.bind_eq_bind, Option.bind_eq_some_iff] at href
        obtain ⟨i, -, entry, -, hsymbol⟩ := href
        cases hsymbol
        cases hv
  · obtain ⟨w, hw, hsymbol⟩ := exists_of_findSome?_eq_some h
    rw [variableSymbol?] at hsymbol
    split at hsymbol
    · cases hsymbol
      cases hv
      exact Array.mem_iff_getElem?.mp (Array.mem_toList_iff.mp hw)
    · cases hsymbol

namespace Document

variable {content newName : Bytes} {chunk : Chunk} {p : EditorPosition} {ranges : List EditorRange}

theorem renameable?_eq_some {range : EditorRange} (h : d.renameable? p = some (range, v)) :
    v.isRenameable = true ∧ ∃ symbol, d.symbolAt? p = some symbol ∧ symbol.target = some v := by
  simp only [renameable?, Option.bind_eq_bind, Option.bind_eq_some_iff] at h
  obtain ⟨symbol, hsymbol, w, hw, hrename⟩ := h
  split at hrename
  · rename_i hrenameable
    cases hrename
    exact ⟨hrenameable, symbol, hsymbol, hw⟩
  · cases hrename

/-- What is known when a rename is not refused. -/
theorem rename_eq_ok (hparse : Parser.parse content = .ok chunk)
    (h : (ofContent content).rename p newName = .ok ranges) :
    IsName newName ∧ ∃ (k : Nat) (v : Variable), chunk.resolve.vars[k]? = some v ∧
      v.isRenameable = true ∧
      ranges = (chunk.resolve.occurrences v).map (ofSpan content) := by
  have hgraph : (ofContent content).graph = some chunk.resolve := by
    simp [ofContent, hparse, Except.toOption]
  unfold rename at h
  split at h
  · cases h
  · rename_i hname
    simp only [hgraph] at h
    split at h
    · cases h
    · rename_i range v hfound
      cases h
      obtain ⟨hrenameable, symbol, hsymbol, htarget⟩ := renameable?_eq_some hfound
      rw [symbolAt?, hgraph, Option.bind_some] at hsymbol
      obtain ⟨k, hk⟩ := ScopeGraph.exists_of_symbolAt? hsymbol htarget
      exact ⟨isName_of_isIdentifier (by simpa using hname), k, v, hk, hrenameable, rfl⟩

/-- Renaming a variable to a name that is not in use keeps bindings. The ranges that are edited are
those of names that use or declare a variable, the edited document is parsed to the tree with
exactly these names replaced, and its references are resolved to the same variables in the same
order. -/
theorem rename_keeps_bindings (hparse : Parser.parse content = .ok chunk)
    (hself : newName ≠ "self")
    (hfresh : ∀ t ∈ Lexer.tokens content, t.kind = .name → t.text ≠ newName)
    (hrename : (ofContent content).rename p newName = .ok ranges) :
    (∀ range ∈ ranges, ∃ m ∈ chunk.mentions, m.span = range.span content ∧
      (m.role.isUse || m.role.isDeclaration) = true) ∧
    ∃ chunk', Parser.parse (EditorRange.replaceAll content newName ranges) = .ok chunk' ∧
      chunk'.block = chunk.block.relocate
        ⟨Span.shift (ranges.map (EditorRange.span content)) newName.length,
          Parser.respelt (ranges.map (EditorRange.span content)) newName⟩ ∧
      chunk'.resolve.references.toList.map Reference.resolved =
        chunk.resolve.references.toList.map Reference.resolved := by
  obtain ⟨hname, k, v, hv, hrenameable, rfl⟩ := rename_eq_ok hparse hrename
  rw [EditorRange.replaceAll, Parser.map_span_occurrences hparse hv hrenameable]
  refine ⟨fun range hrange => ?_, ?_⟩
  · have hmem := List.mem_map_of_mem (f := EditorRange.span content) hrange
    rw [Parser.map_span_occurrences hparse hv hrenameable] at hmem
    exact Parser.placed_occurrences hparse hv hrenameable _ hmem
  -- Putting in the new name moves what stands behind it.
  · have hmoves := Parser.moves_occurrences hparse hv hrenameable newName.length
    obtain ⟨chunk', hparse', hblock⟩ := Parser.parse_splice hname hmoves hparse
      (Parser.sublist_occurrences hparse hv hrenameable)
    exact ⟨chunk', hparse', hblock,
      Parser.resolved_relocate hparse hv hrenameable hname hself hfresh hblock⟩

/-- The places of the variable at a position, as the graph has them before they are sorted. -/
def places? (d : Document) (p : EditorPosition) : Option (List Span) :=
  d.graph.bind fun g => (d.renameable? p).map fun found =>
    (found.2.identifier :: found.2.references.filterMap fun id =>
      (g.references[id]?).map Reference.span).eraseDups

theorem rename_of_sorted {places : List Span} (hname : isIdentifier newName = true)
    (hplaces : d.places? p = some places) (hsorted : places.Pairwise fun a b => a.start ≤ b.start) :
    d.rename p newName = .ok (places.map d.rangeOf) := by
  obtain ⟨g, hgraph, hfound⟩ := Option.bind_eq_some_iff.mp hplaces
  obtain ⟨⟨range, v⟩, hv, rfl⟩ := Option.map_eq_some_iff.mp hfound
  obtain ⟨hself, -, -⟩ := Variable.isRenameable_iff.mp (renameable?_eq_some hv).1
  have hsort := mergeSort_of_pairwise (hsorted.imp decide_eq_true)
  simp only [rename, hname, hgraph, hv, ScopeGraph.occurrences, hself, Bool.not_true,
    Bool.false_eq_true, if_false, singleton_append, hsort]

/-- A document in which `y` is the name of several things, one of which has the given name. -/
def shadowing (name : Bytes) : Bytes :=
  "print(g) local s, " ++ name ++ " = 'é😀', y do local y = " ++ name ++
    " end function s:m(y, ...) return self.y, y, ... end g = " ++ name

theorem rename_keeps_bindings_shadowing :
    ∃ chunk chunk' ranges, Parser.parse (shadowing "y") = .ok chunk ∧
      (∀ t ∈ Lexer.tokens (shadowing "y"), t.kind = .name → t.text ≠ "long") ∧
      (ofContent (shadowing "y")).rename ⟨0, 101⟩ "long" = .ok ranges ∧
      ranges.map EditorRange.start = [⟨0, 18⟩, ⟨0, 44⟩, ⟨0, 101⟩] ∧
      Parser.parse (shadowing "long") = .ok chunk' ∧
      chunk.resolve.references.toList.map Reference.resolved =
        [none, some 6, none, some 0, some 1, some 1, some 2, some 0, some 3, some 4, some 5,
          some 1, none] ∧
      chunk'.resolve.references.toList.map Reference.resolved =
        chunk.resolve.references.toList.map Reference.resolved := by
  have hresolved : (Parser.parse (shadowing "y")).toOption.map
      (fun chunk => chunk.resolve.references.toList.map Reference.resolved) =
      some [none, some 6, none, some 0, some 1, some 1, some 2, some 0, some 3, some 4, some 5,
        some 1, none] := by decide +kernel
  have hfresh : ∀ t ∈ Lexer.tokens (shadowing "y"), t.kind = .name → t.text ≠ "long" := by
    decide +kernel
  have hrename : (ofContent (shadowing "y")).rename ⟨0, 101⟩ "long" =
      .ok [⟨⟨0, 18⟩, ⟨0, 19⟩⟩, ⟨⟨0, 44⟩, ⟨0, 45⟩⟩, ⟨⟨0, 101⟩, ⟨0, 102⟩⟩] := by
    have hplaces : (ofContent (shadowing "y")).places? ⟨0, 101⟩ =
        some [⟨18, 19⟩, ⟨47, 48⟩, ⟨104, 105⟩] := by decide +kernel
    rw [rename_of_sorted (by decide +kernel) hplaces (by decide)]
    decide +kernel
  have htext : EditorRange.replaceAll (shadowing "y") "long"
      [⟨⟨0, 18⟩, ⟨0, 19⟩⟩, ⟨⟨0, 44⟩, ⟨0, 45⟩⟩, ⟨⟨0, 101⟩, ⟨0, 102⟩⟩] = shadowing "long" := by
    decide +kernel
  cases hparse : Parser.parse (shadowing "y") with
  | error e =>
    rw [hparse] at hresolved
    cases hresolved
  | ok chunk =>
    rw [hparse] at hresolved
    obtain ⟨-, chunk', hparse', -, hsame⟩ :=
      rename_keeps_bindings hparse (by decide) hfresh hrename
    exact ⟨chunk, chunk', _, rfl, hfresh, hrename, rfl, htext ▸ hparse', Option.some.inj hresolved,
      hsame⟩

end Document

end LuaLint
