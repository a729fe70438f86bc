import LuaLint.Proofs.Library.Decoded
import LuaLint.Proofs.Lint.Outcome
import LuaLint.Proofs.Lint.Places

/-!
# Labels point into the source

Every label of every diagnostic marks at least one byte of the source. A check only points at what
it has seen: nodes of the tree, entries of the scope graph and comments. The check of directives
points at comments and at the first statement.

Main statements: `Lint.inside_findings`, `Chunk.inside_reports`, `Linter.labels_inside`.
-/

namespace LuaLint

open List Finding LintInput LuaLint.Parser

variable {s span : Span} {l : Label} {f : Finding} {ref : Reference} {v : Variable} {c : Call}
  {e : Expr}

variable {source : Bytes}

/-! ## Labels -/

/-- A label marks at least one byte of a source, and nothing outside of it. -/
def Label.Inside (source : Bytes) (l : Label) : Prop :=
  0 ≤ l.start ∧ l.start < l.stop ∧ l.stop ≤ source.length

theorem Span.Inside.label (h : s.Inside source) : (Label.ofSpan s).Inside source :=
  ⟨Int.natCast_nonneg _, Int.ofNat_lt.mpr h.1, Int.ofNat_le.mpr h.2⟩

theorem Label.Inside.saying (h : l.Inside source) (message : Bytes) :
    (l.saying message).Inside source := h

namespace Finding

def Inside (source : Bytes) (f : Finding) : Prop := ∀ l ∈ f.primary :: f.secondary, l.Inside source

variable {f : Finding}

theorem inside_about (h : s.Inside source) (message : Bytes) : (about s message).Inside source := by
  intro l hl
  rw [mem_singleton.mp hl]
  exact h.label

theorem Inside.noting (h : f.Inside source) (notes : List Bytes) : (f.noting notes).Inside source :=
  h

theorem Inside.alsoAt (h : f.Inside source) {labels : List Label}
    (hlabels : ∀ l ∈ labels, l.Inside source) : (f.alsoAt labels).Inside source :=
  forall_mem_cons.mpr ⟨(forall_mem_cons.mp h).1, hlabels⟩

end Finding

def AllInside (source : Bytes) (fs : List Finding) : Prop := ∀ f ∈ fs, f.Inside source

namespace AllInside

variable {α : Type} {xs : List α} {fs fs' : List Finding}

theorem nil : AllInside source [] := by simp [AllInside]

theorem single (h : f.Inside source) : AllInside source [f] :=
  forall_mem_singleton.mpr h

theorem append (h : AllInside source fs) (h' : AllInside source fs') : AllInside source
    (fs ++ fs') :=
  forall_mem_append.mpr ⟨h, h'⟩

theorem flatMap {g : α → List Finding} (h : ∀ x ∈ xs, AllInside source (g x)) :
    AllInside source (xs.flatMap g) := by
  intro f hf
  obtain ⟨x, hx, hf⟩ := mem_flatMap.mp hf
  exact h x hx f hf

theorem filterMap {g : α → Option Finding} (h : ∀ x ∈ xs, ∀ f, g x = some f → f.Inside source) :
    AllInside source (xs.filterMap g) := by
  intro f hf
  obtain ⟨x, hx, hf⟩ := mem_filterMap.mp hf
  exact h x hx f hf

end AllInside

/-! ## What checks look at -/

/-- What checks look at is a parsed source with its scope graph. -/
structure LintInput.Parsed (source : Bytes) (input : LintInput) : Prop where
  parse : Parser.parse source = .ok input.chunk
  graph : input.graph = input.chunk.resolve

/-- A chunk on its own, checked against a library. -/
def LintInput.ofChunk (source : Bytes) (chunk : Chunk) (library : Library) : LintInput :=
  ⟨source, chunk, chunk.resolve, library, none⟩

namespace LintInput.Parsed

variable {input : LintInput} (h : input.Parsed source)

include h

theorem reference (href : ref ∈ input.graph.references) : ref.span.Inside source :=
  inside_of_runs h.parse (runs_reference h.parse (h.graph ▸ href))

theorem identifier (hv : v ∈ input.graph.vars) : v.identifier.Inside source :=
  inside_of_runs h.parse (runs_variable h.parse (h.graph ▸ hv)).1

theorem definition (hv : v ∈ input.graph.vars) :
    ∀ definition ∈ v.definitions, definition.Inside source := fun definition hdef =>
  inside_of_runs h.parse ((runs_variable h.parse (h.graph ▸ hv)).2.1 definition hdef)

theorem call {c : CallRecord} (hc : c ∈ input.graph.calls) : c.span.Inside source :=
  inside_of_runs h.parse (runs_call h.parse (h.graph ▸ hc))

theorem expr (he : .expr e ∈ input.chunk.nodes) : e.span.Inside source := by
  obtain ⟨run, hrun, hread⟩ := sited_nodes h.parse _ he
  exact inside_of_over h.parse (Reads.over_expr hread) hrun

theorem use {u : NameUse} (hu : u ∈ input.chunk.nameUses) : u.expr.span.Inside source := by
  obtain ⟨run, hrun, hread⟩ := sited_nameUses h.parse u hu
  exact inside_of_over h.parse hread.over_expr hrun

theorem callee (hc : .call c ∈ input.chunk.nameUses) : c.calleeSpan.Inside source := by
  obtain ⟨run, hrun, hread⟩ := sited_nameUses h.parse _ hc
  obtain ⟨ts, us, rfl, hover, -⟩ := Reads.call_parts hread
  exact inside_of_over h.parse hover ((prefix_append ts us).isInfix.trans hrun)

theorem argument (hc : .call c ∈ input.chunk.nameUses) : ∀ e ∈ c.args, e.span.Inside source := by
  obtain ⟨run, hrun, hread⟩ := sited_nameUses h.parse _ hc
  obtain ⟨ts, us, rfl, -, hargs⟩ := Reads.call_parts hread
  intro e he
  obtain ⟨run', hrun', hread'⟩ := hargs.fits.1.grounded.sited_exprs e he
  have hsub := (hrun'.trans (suffix_append ts us).isInfix).trans hrun
  exact inside_of_over h.parse hread'.over_expr hsub

end LintInput.Parsed

/-! ## The checks -/

namespace LintInput

variable {input : LintInput}

theorem inside_deprecatedAlong (hspan : span.Inside source) (allowed : List (List Bytes))
    (what : Bytes) (path args : List Bytes) :
    AllInside source (input.deprecatedAlong allowed span what path args) := by
  unfold deprecatedAlong
  split
  · exact .nil
  · refine .filterMap fun n _ f hf => ?_
    obtain ⟨field, -, hf⟩ := Option.bind_eq_some_iff.mp hf
    obtain ⟨note, -, hf⟩ := Option.bind_eq_some_iff.mp hf
    cases hf
    exact (inside_about hspan _).noting _

section

variable (h : input.Parsed source)
include h

theorem inside_deprecatedUses (allowed : List (List Bytes)) :
    AllInside source (input.deprecatedUses allowed) := by
  refine .flatMap fun use huse => ?_
  cases use with
  | target e => exact .nil
  | value e | call c =>
    simp only
    split
    · exact .nil
    · split
      · exact inside_deprecatedAlong (h.use huse) _ _ _ _
      · exact .nil

theorem inside_zeroDivisions : AllInside source input.zeroDivisions := by
  refine .filterMap fun node hnode f hf => ?_
  split at hf
  · split at hf
    · cases hf
      exact inside_about (h.expr hnode) _
    · cases hf
  · cases hf

theorem inside_emptyConditionals (commentsCount : Bool) :
    AllInside source (input.emptyConditionals commentsCount) := by
  refine .flatMap fun node hnode => ?_
  split
  · rename_i s
    intro f hf
    obtain ⟨arm, harm, rfl⟩ := mem_map.mp hf
    exact inside_about
      (inside_emptyArm h.parse hnode arm (mem_filter.mp harm).1) _
  · exact .nil

theorem inside_globalTableUses (ignore : Option Pattern) :
    AllInside source (input.globalTableUses ignore) := by
  refine .filterMap fun ref href f hf => ?_
  split at hf
  · cases hf
  · split at hf
    · cases hf
    · cases hf
      exact inside_about (h.reference (Array.mem_toList_iff.mp href)) _

end

theorem inside_missingField (hspan : span.Inside source) (path : List Bytes) :
    AllInside source (input.missingField path span) := by
  simp only [missingField]
  split
  · exact .nil
  · split
    · exact .nil
    · exact .single ((inside_about hspan _).noting _)

theorem inside_badValue (he : e.span.Inside source) : AllInside source (input.badValue e) := by
  unfold badValue
  split
  · exact .nil
  · split
    · exact inside_missingField he _
    · exact .nil

theorem inside_badTarget (he : e.span.Inside source) : AllInside source (input.badTarget e) := by
  unfold badTarget
  split
  · exact .nil
  · split
    · split
      · split
        · exact .nil
        · exact .single (inside_about he _)
      · exact .nil
    · split
      · exact .nil
      · split
        · exact inside_missingField he _
        · split
          · exact .nil
          · exact .single (inside_about he _)

theorem inside_wrongCount (hspan : span.Inside source) (name : Bytes) (check : CountCheck) :
    AllInside source (wrongCount span name check) := by
  refine .append ?_ ?_
  · split
    · exact .nil
    · exact .single ((inside_about hspan _).noting _)
  · split
    · exact .single (inside_about hspan _)
    · exact .nil

theorem inside_wrongTypes (hargs : ∀ e ∈ c.args, e.span.Inside source) (name : Bytes)
    (declared : List Argument) : AllInside source (wrongTypes name declared c.passed) := by
  refine .filterMap fun pair hpair f hf => ?_
  obtain ⟨type, -, hf⟩ := Option.bind_eq_some_iff.mp hf
  split at hf
  · cases hf
  · cases hf
    obtain ⟨e, he, heq⟩ := mem_map.mp (of_mem_zip hpair).2
    have hspan : pair.2.span.Inside source := heq ▸ hargs e he
    exact forall_mem_singleton.mpr (hspan.label.saying _)

theorem inside_badCall (h : input.Parsed source) (hc : .call c ∈ input.chunk.nameUses) :
    AllInside source (input.badCall c) := by
  have hspan : c.span.Inside source := h.use hc
  unfold badCall
  split
  · exact .nil
  · split
    · exact .nil
    · simp only
      split
      · exact inside_missingField (h.callee hc) _
      · split
        · exact .nil
        · split
          · exact .single ((inside_about hspan _).noting _)
          · exact (inside_wrongCount hspan _ _).append (inside_wrongTypes (h.argument hc) _ _)
        · exact .single (inside_about hspan _)

theorem inside_libraryMisuses (h : input.Parsed source) :
    AllInside source input.libraryMisuses := by
  refine .flatMap fun use huse => ?_
  cases use with
  | value e => exact inside_badValue (h.use huse)
  | target e => exact inside_badTarget (h.use huse)
  | call c => exact inside_badCall h huse

theorem mem_statements {c : Chunk} {s : Stmt} (hs : s ∈ c.statements) : .stmt s ∈ c.nodes := by
  obtain ⟨node, hnode, heq⟩ := mem_filterMap.mp hs
  split at heq
  · cases heq
    exact hnode
  · cases heq

section

variable (h : input.Parsed source)
include h

theorem inside_cloneFinding {s : Stmt} (hs : .stmt s ∈ input.chunk.nodes) {loop : CopyLoop}
    (hloop : s.copyLoop? = some loop) (hf : input.cloneFinding? loop = some f) :
    f.Inside source := by
  obtain ⟨hspan, hjoined⟩ := inside_copyLoop h.parse hs hloop
  obtain ⟨v, hv, hf⟩ := Option.bind_eq_some_iff.mp hf
  obtain ⟨definition, hdef, hf⟩ := Option.bind_eq_some_iff.mp hf
  obtain ⟨ref, href, hvar⟩ := Option.bind_eq_some_iff.mp hv
  have hpos : ref.span.start = loop.into.pos := by simpa using Array.find?_some href
  have hmem := Array.mem_of_find?_eq_some href
  split at hf
  · cases hf
  · rename_i hempty
    split at hf
    · cases hf
    · cases hf
      -- The variable begins as an empty table, so it is a local one, and its definition comes
      -- first.
      have hvalue : v.value ≠ .unknown := by
        intro hunknown
        simp [hunknown] at hempty
      have hle : definition.start ≤ loop.into.pos := by
        rw [← hpos]
        exact definition_le_reference h.parse (h.graph ▸ hmem) (h.graph ▸ hvar) hvalue hdef
      obtain ⟨id, -, hid⟩ := Option.bind_eq_some_iff.mp hvar
      have hdefinition := h.definition (Array.mem_of_getElem? hid) definition
        (mem_of_mem_head? hdef)
      refine Finding.Inside.noting (.alsoAt (inside_about ?_ _) ?_) _
      · split
        · exact hspan
        · exact hjoined definition.start hle
      · split
        · exact forall_mem_singleton.mpr (hdefinition.label.saying _)
        · simp

theorem inside_tableClones : AllInside source input.tableClones := by
  unfold tableClones
  split
  · exact .nil
  · refine .filterMap fun loop hmem f hf => ?_
    obtain ⟨s, hs, hloop⟩ := mem_filterMap.mp hmem
    exact inside_cloneFinding h (mem_statements hs) hloop hf

theorem inside_definedAt (id : Nat) : ∀ l ∈ input.definedAt id, l.Inside source := by
  intro l hl
  obtain ⟨span, hspan, rfl⟩ := mem_map.mp hl
  refine Span.Inside.label ?_ |>.saying _
  rcases mem_append.mp (mem_eraseDups.mp hspan) with hspan | hspan
  -- A definition of the function, or else a place where it is assigned.
  · cases hvar : input.graph.vars[id]? with
    | none =>
      rw [hvar] at hspan
      cases hspan
    | some v =>
      rw [hvar] at hspan
      exact h.definition (Array.mem_of_getElem? hvar) span hspan
  · obtain ⟨r, -, hr⟩ := mem_filterMap.mp hspan
    split at hr
    · rename_i ref href
      split at hr
      · cases hr
        exact h.reference (Array.mem_of_getElem? href)
      · cases hr
    · cases hr

theorem inside_surplusArguments : AllInside source input.surplusArguments := by
  refine .filterMap fun node hnode f hf => ?_
  split at hf
  · rename_i callee method form args
    unfold surplus? at hf
    split at hf
    · obtain ⟨id, -, hf⟩ := Option.bind_eq_some_iff.mp hf
      obtain ⟨params, -, hf⟩ := Option.bind_eq_some_iff.mp hf
      split at hf
      · cases hf
      · cases hf
        exact forall_mem_cons.mpr ⟨(h.expr hnode).label.saying _, inside_definedAt h id⟩
    · cases hf
  · cases hf

theorem inside_droppedResults : AllInside source input.droppedResults := by
  refine .filterMap fun c hc f hf => ?_
  split at hf
  · cases hf
    exact inside_about (h.call (Array.mem_toList_iff.mp hc)) _
  · cases hf

theorem inside_shadowings (ignore : Option Pattern) :
    AllInside source (input.shadowings ignore) := by
  refine .filterMap fun v hv f hf => ?_
  obtain ⟨hidden, hhidden, hf⟩ := Option.bind_eq_some_iff.mp hf
  obtain ⟨id, -, hid⟩ := Option.bind_eq_some_iff.mp hhidden
  split at hf
  · cases hf
  · cases hf
    have hbefore := h.identifier (Array.mem_of_getElem? hid)
    exact (inside_about (h.identifier (Array.mem_toList_iff.mp hv)) _).alsoAt
      (forall_mem_singleton.mpr (hbefore.label.saying _))

theorem inside_undefinedReads : AllInside source input.undefinedReads := by
  refine .filterMap fun ref href f hf => ?_
  split at hf
  · cases hf
  · cases hf
    exact (inside_about (h.reference (Array.mem_toList_iff.mp href)) _).noting _

theorem inside_createdGlobals (ignore : Option Pattern) :
    AllInside source (input.createdGlobals ignore) := by
  refine .filterMap fun ref href f hf => ?_
  split at hf
  · cases hf
  · cases hf
    exact inside_about (h.reference (Array.mem_toList_iff.mp href)) _

end

theorem inside_useBy (href : ref.span.Inside source) (v : Variable)
    (hl : input.useBy v ref = .unread l) : l.Inside source := by
  simp only [useBy] at hl
  split at hl
  · cases hl
    exact href.label.saying _
  · split at hl
    · cases hl
    · split at hl
      · cases hl
      · split at hl
        · cases hl
          exact href.label.saying _
        · cases hl

theorem inside_unusedVariables (h : input.Parsed source) (allowUnusedSelf : Bool)
    (ignore : Option Pattern) : AllInside source
    (input.unusedVariables allowUnusedSelf ignore) := by
  refine .filterMap fun v hv f hf => ?_
  simp only [unusedFinding?] at hf
  split at hf
  · cases hf
  · split at hf
    · cases hf
    · cases hf
      refine Finding.Inside.noting (.alsoAt (inside_about ?_ _) fun l hl => ?_) _
      · exact h.identifier (Array.mem_toList_iff.mp hv)
      · obtain ⟨use, huse, hl⟩ := mem_filterMap.mp hl
        obtain ⟨id, -, hid⟩ := mem_filterMap.mp huse
        obtain ⟨ref, href, rfl⟩ := Option.map_eq_some_iff.mp hid
        split at hl
        · rename_i label hunread
          cases hl
          exact inside_useBy (h.reference (Array.mem_of_getElem? href)) v hunread
        · cases hl

end LintInput

/-- All that a check finds is in the source. -/
theorem Lint.inside_findings {input : LintInput} (h : input.Parsed source) (o : LintOptions)
    (lint : Lint) : AllInside source (lint.findings o input) := by
  cases lint with
  | deprecated => exact inside_deprecatedUses h _
  | divideByZero => exact inside_zeroDivisions h
  | emptyIf => exact inside_emptyConditionals h _
  | globalUsage => exact inside_globalTableUses h _
  | libraryUse => exact inside_libraryMisuses h
  | directives => exact .nil
  | tableClone => exact inside_tableClones h
  | argumentCount => exact inside_surplusArguments h
  | mustUse => exact inside_droppedResults h
  | shadowing => exact inside_shadowings h _
  | undefined => exact inside_undefinedReads h
  | unscoped => exact inside_createdGlobals h _
  | unused => exact inside_unusedVariables h _ _

/-! ## Directives -/

theorem Rule.inside_finding {comment : Span} (hcomment : comment.Inside source)
    {secondary : List Label} (hsecondary : ∀ l ∈ secondary, l.Inside source) (message : Bytes)
    (notes : List Bytes) : (finding message comment secondary notes).toFinding.Inside source :=
  forall_mem_cons.mpr ⟨hcomment.label, hsecondary⟩

/-- What is said of rules that do not take effect or are in conflict points at comments and at the
first statement. -/
theorem Rule.inside_accept {first : Option Span} (hfirst : ∀ s ∈ first, s.Inside source)
    {accepted rules : List Rule} (haccepted : ∀ r ∈ accepted, r.comment.Inside source)
    (hrules : ∀ r ∈ rules, r.comment.Inside source) :
    ∀ d ∈ (accept first accepted rules).2, d.toFinding.Inside source := by
  induction rules generalizing accepted with
  | nil => simp [accept]
  | cons r rest ih =>
    obtain ⟨hr, hrest⟩ := forall_mem_cons.mp hrules
    simp only [accept]
    split
    · rename_i hlate
      refine forall_mem_cons.mpr ⟨?_, ih haccepted hrest⟩
      cases first with
      | none => simp [isLate] at hlate
      | some span =>
        exact inside_finding hr (forall_mem_singleton.mpr ((hfirst span rfl).label.saying _)) _ _
    · refine forall_mem_append.mpr ⟨fun d hd => ?_, ih ?_ hrest⟩
      · obtain ⟨earlier, hearlier, rfl⟩ := mem_map.mp hd
        have hcomment := haccepted earlier (mem_filter.mp hearlier).1
        exact inside_finding hr (forall_mem_singleton.mpr (hcomment.label.saying _)) _ _
      · exact forall_mem_append.mpr ⟨haccepted, forall_mem_singleton.mpr hr⟩

namespace Chunk

variable {chunk : Chunk}

theorem exists_comment_of_mem_rules {known : List Bytes} {x : Rule ⊕ Diagnostic}
    (hx : x ∈ chunk.rules known) : ∃ c ∈ chunk.comments,
      (∃ r, x = .inl r ∧ r.comment = c.span) ∨
      ∃ lint, x = .inr (Rule.unknownLint known c.span lint) := by
  obtain ⟨c, hc, hx⟩ := mem_flatMap.mp hx
  obtain ⟨d, -, hx⟩ := mem_flatMap.mp hx
  obtain ⟨lint, -, rfl⟩ := mem_map.mp hx
  refine ⟨c, (mem_filter.mp hc).1, ?_⟩
  split
  · exact .inl ⟨_, rfl, rfl⟩
  · exact .inr ⟨lint, rfl⟩

/-- So are the findings about directives. -/
theorem inside_reports (h : Parser.parse source = .ok chunk) (known : List Bytes) :
    ∀ d ∈ chunk.reports known, d.toFinding.Inside source := by
  refine forall_mem_append.mpr ⟨fun d hd => ?_, ?_⟩
  · obtain ⟨x, hx, hright⟩ := mem_filterMap.mp hd
    obtain ⟨c, hc, ⟨r, rfl, -⟩ | ⟨lint, rfl⟩⟩ := exists_comment_of_mem_rules hx
    · cases hright
    · cases hright
      exact Rule.inside_finding (inside_comment h hc) (by simp) _ _
  · refine Rule.inside_accept (fun s hs => inside_firstCode h hs) (by simp) fun r hr => ?_
    obtain ⟨x, hx, hleft⟩ := mem_filterMap.mp hr
    obtain ⟨c, hc, ⟨r', rfl, hcomment⟩ | ⟨lint, rfl⟩⟩ := exists_comment_of_mem_rules hx
    · cases hleft
      exact hcomment ▸ inside_comment h hc
    · cases hleft

end Chunk

/-! ## Diagnostics -/

namespace Linter

/-- Every label of every diagnostic marks at least one byte of the source and nothing outside of
it. -/
theorem labels_inside {l : Linter} {ds : List Diagnostic} (h : l.run source = .ok ds) :
    ∀ d ∈ ds, ∀ label ∈ d.primary :: d.secondary,
      0 ≤ label.start ∧ label.start < label.stop ∧ label.stop ≤ source.length := by
  cases hparse : Parser.parse source with
  | error e =>
    rw [run, hparse] at h
    cases h
  | ok chunk =>
    rw [run, hparse] at h
    cases h
    intro d hd
    show d.toFinding.Inside source
    rcases mem_check.mp hd with ⟨x, hx, houtcome⟩ | ⟨d₀, hd₀, hshown⟩
    · rw [(outcome?_eq_some houtcome).1]
      obtain ⟨lint, -, hx⟩ := List.mem_flatMap.mp hx
      obtain ⟨f, hf, rfl⟩ := List.mem_map.mp hx
      exact Lint.inside_findings ⟨hparse, rfl⟩ _ lint f hf
    · rw [(shown?_eq_some hshown).1]
      exact chunk.inside_reports hparse _ d₀ hd₀

def cloning : Library := { Library.empty with globals := [("table", .ofShape .any)] }

/-- A directive about a lint that does not exist, a conditional of empty arms, and a table that is
copied right after its definition. -/
def markedSource : Bytes :=
  "-- selene: allow(none)\nif a then elseif b then else end\n" ++
    "local t = \x7b\x7d\nfor k, v in a do t[k] = v end"

theorem labels_inside_arms : ∃ l chunk ds, ofConfig Config.empty cloning = .ok l ∧
    Parser.parse markedSource = .ok chunk ∧
    (findings l.settings.options (l.input markedSource chunk)).map
        (fun x => (x.1, x.2.primary.start, x.2.primary.stop)) =
      [(.emptyIf, 23, 55), (.emptyIf, 33, 47), (.emptyIf, 47, 55), (.tableClone, 56, 98),
        (.undefined, 26, 27), (.undefined, 40, 41), (.undefined, 81, 82)] ∧
    (chunk.reports Lint.names).map (fun d => (d.primary.start, d.primary.stop)) = [(0, 22)] ∧
    l.run markedSource = .ok ds ∧
    ∀ d ∈ ds, ∀ label ∈ d.primary :: d.secondary,
      0 ≤ label.start ∧ label.start < label.stop ∧ label.stop ≤ markedSource.length := by
  have hinput : ∃ l ∈ (ofConfig Config.empty cloning).toOption,
      ∃ chunk ∈ (Parser.parse markedSource).toOption,
        (findings l.settings.options (l.input markedSource chunk)).map
            (fun x => (x.1, x.2.primary.start, x.2.primary.stop)) =
          [(.emptyIf, 23, 55), (.emptyIf, 33, 47), (.emptyIf, 47, 55), (.tableClone, 56, 98),
            (.undefined, 26, 27), (.undefined, 40, 41), (.undefined, 81, 82)] ∧
        (chunk.reports Lint.names).map (fun d => (d.primary.start, d.primary.stop)) =
          [(0, 22)] := by
    decide +kernel
  obtain ⟨l, hl, chunk, hparse, hfound, hreports⟩ := hinput
  have hl := toOption_eq_some_iff.mp hl
  have hparse := toOption_eq_some_iff.mp hparse
  have hrun : l.run markedSource = .ok (l.check markedSource chunk) := by
    rw [run, hparse]
    rfl
  exact ⟨l, chunk, _, hl, hparse, hfound, hreports, hrun, labels_inside hrun⟩

end Linter

end LuaLint
