import LuaLint.Proofs.Lint.Labels
import LuaLint.Proofs.Scope.Arguments
import LuaLint.Proofs.Scope.Writes

/-!
# Findings about unused variables

The check for unused variables finds a variable only if no occurrence of it is a use. A name may be
declared and assigned to; if it begins as a table, then fields of it may be written, and it may be
passed to functions of the library that only write to it. The check judges by what references
record: indexes up to the first dynamic one, and none for arguments. So a table may lead on by a
dynamic index to what is written.

Main statements: `Chunk.initialTable_of_value`, `LintInput.Parsed.onlyWrites`,
`LintInput.Parsed.unusedVariables_sound`.
-/

namespace LuaLint

variable {record : CallRecord} {mark : CallArgument}

/-! ## Occurrences that are no uses -/

def Chunk.InitialTable (c : Chunk) (v : Variable) : Prop :=
  ∃ (pos : Nat) (names : List LocalName) (values : List Expr) (n : LocalName) (e : Expr),
    .stmt (.localAssign pos names values) ∈ c.nodes ∧ (n, e) ∈ names.zip values ∧
    n.ident.span = v.identifier ∧ ∃ lbrace fields rbrace, e.strip = .table lbrace fields rbrace

/-- A call statement calls a function of the library that only writes to one of its arguments. What
is called begins with a name that is not a variable of the chunk. -/
def LintInput.WritesTo (input : LintInput) (c : Call) (k : Nat) : Prop :=
  ∃ (i : Ident) (path : List Bytes) (field : Field) (fn : FunctionShape) (arg : Argument),
    c.callee.base = .name i ∧ c.callee.hasCall = false ∧
    (∀ ref ∈ input.graph.references, ref.span = i.span → ref.resolved = none) ∧
    c.expr.namePath? = some path ∧ input.library.find? path = some field ∧
    field.shape = .function fn ∧ fn.args[k]? = some arg ∧ arg.observes = .write

/-- An occurrence of a variable is no use of it. -/
inductive LintInput.OnlyWrites (input : LintInput) (v : Variable) (ref : Reference) : Prop where
  | declared : v.hoisted = false → ref.span = v.identifier → OnlyWrites input v ref
  | target {targets values : List Expr} {equal : Nat} {i : Ident} :
      .stmt (.assign targets equal values) ∈ input.chunk.nodes → .name i ∈ targets →
      ref.span = i.span → OnlyWrites input v ref
  | field {targets values : List Expr} {equal : Nat} {e : Expr} {i : Ident} :
      input.chunk.InitialTable v → .stmt (.assign targets equal values) ∈ input.chunk.nodes →
      e ∈ targets → e.IsFieldOf i → ref.span = i.span → OnlyWrites input v ref
  /-- A function becomes a field of a table. -/
  | function {pos : Nat} {n : FuncName} {body : FuncBody} :
      input.chunk.InitialTable v → .stmt (.function pos n body) ∈ input.chunk.nodes →
      (n.fields ++ n.method.toList).length = 1 → ref.span = n.base.span → OnlyWrites input v ref
  /-- A table, or what static indexes lead to from it, is passed to a function that only writes to
  it. -/
  | argument {callee : Expr} {method : Option Ident} {form : CallForm} {args : List Expr} {k : Nat}
      {e : Expr} {i : Ident} :
      input.chunk.InitialTable v → .stmt (.call callee method form args) ∈ input.chunk.nodes →
      args[k]? = some e → e.base = .name i → e.links.all Expr.isStatic = true → ref.span = i.span →
      input.WritesTo ⟨callee, method, form, args⟩ k → OnlyWrites input v ref

/-- An occurrence of a variable that has been initialised with a table leads on to something by a
dynamic index: behind one static index in what is assigned to, or anywhere in what is passed to a
function of the library that only writes to it. -/
inductive LintInput.ReachesDynamically (input : LintInput) (v : Variable)
    (ref : Reference) : Prop where
  | target {targets values : List Expr} {equal : Nat} {e l l' : Expr} {rest : List Expr}
    {i : Ident} :
      input.chunk.InitialTable v → .stmt (.assign targets equal values) ∈ input.chunk.nodes →
      e ∈ targets → e.base = .name i → e.hasCall = false → e.links = l :: l' :: rest →
      l.isStatic = true → l'.isStatic = false → ref.span = i.span → ReachesDynamically input v ref
  | argument {callee : Expr} {method : Option Ident} {form : CallForm} {args : List Expr} {k : Nat}
      {e : Expr} {i : Ident} :
      input.chunk.InitialTable v → .stmt (.call callee method form args) ∈ input.chunk.nodes →
      args[k]? = some e → e.base = .name i → e.hasCall = false →
      e.links.all Expr.isStatic = false → ref.span = i.span →
      input.WritesTo ⟨callee, method, form, args⟩ k → ReachesDynamically input v ref

/-! ## Initial values -/

theorem Expr.strip_of_initialValue {e : Expr} (h : e.initialValue ≠ .unknown) :
    ∃ lbrace fields rbrace, e.strip = .table lbrace fields rbrace := by
  unfold initialValue at h
  split at h
  · next lbrace rbrace hstrip => exact ⟨lbrace, [], rbrace, hstrip⟩
  · next lbrace f fs rbrace hstrip => exact ⟨lbrace, f :: fs, rbrace, hstrip⟩
  · exact absurd rfl h

/-- A variable has a known value only from its declaration. -/
theorem Chunk.initialTable_of_value {c : Chunk} {v : Variable} (hv : v ∈ c.resolve.vars)
    (hvalue : v.value ≠ .unknown) : c.InitialTable v := by
  obtain ⟨e, he, d, hd, hident, hsame, -⟩ := (c.records_resolve.vars v hv).declared
  rw [hsame] at hvalue
  cases e with
  | declare d' =>
    cases hd
    cases c.arises he with
    | declared hunknown _ => exact absurd hunknown hvalue
    | initial hs hmem hname hinitial _ =>
      rw [hinitial] at hvalue
      exact ⟨_, _, _, _, _, hs, hmem, hname.symm.trans hident.symm,
        Expr.strip_of_initialValue hvalue⟩
  | assign u =>
    cases hd
    exact absurd rfl hvalue
  | _ => cases hd

/-! ## References -/

namespace LintInput

variable {source : Bytes} {input : LintInput} {v : Variable} {ref : Reference} {id : Nat}

theorem calledFunction?_eq_some {fn : FunctionShape}
    (hfn : input.calledFunction? record = some fn) {base : Reference}
    (hbase : input.graph.references[record.reference]? = some base) : base.resolved = none ∧
      ∃ field, input.library.find? record.path = some field ∧ field.shape = .function fn := by
  unfold calledFunction? at hfn
  split at hfn
  · cases hfn
  · next hunresolved =>
    refine ⟨by simpa [hbase] using hunresolved, ?_⟩
    split at hfn
    · next field hfield =>
      split at hfn
      · next fn' hshape =>
        cases hfn
        exact ⟨field, hfield, hshape⟩
      · cases hfn
    · cases hfn

theorem onlyWritesTo_eq_some (hrecord : input.onlyWritesTo mark = some record) :
    input.graph.calls[mark.call]? = some record ∧ ∃ fn arg, input.calledFunction? record = some fn ∧
      fn.args[mark.arg]? = some arg ∧ arg.observes = .write := by
  obtain ⟨record', hcall, hrecord⟩ := Option.bind_eq_some_iff.mp hrecord
  obtain ⟨fn, hfn, hrecord⟩ := Option.bind_eq_some_iff.mp hrecord
  obtain ⟨arg, harg, hrecord⟩ := Option.bind_eq_some_iff.mp hrecord
  split at hrecord
  · next hwrite =>
    cases hrecord
    exact ⟨hcall, fn, arg, hfn, harg, beq_iff_eq.mp hwrite⟩
  · cases hrecord

theorem useBy_cases (huse : input.useBy v ref ≠ .read) :
    (ref.write ≠ none ∧ v.value ≠ .unknown ∧ ref.indexing.length = 1) ∨
    (ref.write ≠ none ∧ ref.read = false) ∨
    (v.value ≠ .unknown ∧ ∃ mark record, ref.passedTo = some mark ∧
      input.onlyWritesTo mark = some record) := by
  simp only [useBy, Bool.and_eq_true, bne_iff_ne, beq_iff_eq, Bool.not_eq_true',
    Option.isSome_iff_ne_none] at huse
  split at huse
  · next hfield => exact .inl ⟨hfield.1.1, hfield.1.2, hfield.2⟩
  · split at huse
    · next hreplaced => exact .inr (.inl hreplaced)
    · split at huse
      · exact absurd rfl huse
      · next htable =>
        split at huse
        · next record hpassed =>
          obtain ⟨mark, hmark, hrecord⟩ := Option.bind_eq_some_iff.mp hpassed
          exact .inr (.inr ⟨by simpa using htable, mark, record, hmark, hrecord⟩)
        · exact absurd rfl huse

theorem unusedFinding?_eq_some {allowUnusedSelf : Bool} {ignore : Option Pattern} {x : Finding}
    (hx : input.unusedFinding? allowUnusedSelf ignore v = some x) :
    .read ∉ input.usesOf v ∧ x.primary.start = v.identifier.start ∧
      x.primary.stop = v.identifier.stop := by
  simp only [unusedFinding?] at hx
  split at hx
  · cases hx
  · split at hx
    · cases hx
    · next hused =>
      cases hx
      rw [Bool.or_eq_true, not_or, List.contains_iff_mem] at hused
      exact ⟨hused.1, rfl, rfl⟩

namespace Parsed

variable (h : input.Parsed source)
include h

theorem useBy_mem_usesOf (hv : input.graph.vars[id]? = some v) (href : ref ∈ input.graph.references)
    (hid : ref.resolved = some id) : input.useBy v ref ∈ input.usesOf v := by
  have hlinked : input.graph.Linked := h.graph ▸ input.chunk.linked_resolve
  obtain ⟨k, hk⟩ := Array.mem_iff_getElem?.mp href
  refine List.mem_filterMap.mpr ⟨k, ?_, by rw [hk, Option.map_some]⟩
  rw [hlinked.occurrences id v hv]
  exact mem_numbers.mpr ⟨ref, hk, by simp [hid]⟩

theorem writesTo_of_mark (href : ref ∈ input.graph.references) (hmark : ref.passedTo = some mark)
    (hrecord : input.onlyWritesTo mark = some record) :
    ∃ (callee : Expr) (method : Option Ident) (form : CallForm) (args : List Expr) (e : Expr)
      (j : Ident),
      .stmt (.call callee method form args) ∈ input.chunk.nodes ∧ args[mark.arg]? = some e ∧
      e.base = .name j ∧ e.hasCall = false ∧ ref.span = j.span ∧
      input.WritesTo ⟨callee, method, form, args⟩ mark.arg := by
  obtain ⟨hcall, fn, arg, hfn, harg, hwrite⟩ := onlyWritesTo_eq_some hrecord
  rw [h.graph] at href hcall
  obtain ⟨callee, method, form, args, i, j, e, record', base, hs, he, hj, hplain, hspan, hi, hfirst,
    hcall', hpath, hbase, hplace⟩ := Chunk.exists_argument_of_mark href hmark
  obtain rfl : record = record' := Option.some.inj (hcall.symm.trans hcall')
  obtain ⟨hnone, field, hfield, hshape⟩ := calledFunction?_eq_some hfn (h.graph ▸ hbase)
  refine ⟨callee, method, form, args, e, j, hs, he, hj, hplain, hspan, i, record.path, field, fn,
    arg, hi, hfirst, fun other hother hsame => ?_, hpath, hfield, hshape, harg, hwrite⟩
  -- One reference stands at the name that is called.
  rw [h.graph] at hother
  rw [Parser.reference_unique h.parse hother (Array.mem_of_getElem? hbase)
    (congrArg Span.start (hsame.trans hplace.symm)), hnone]

/-- What does not count as a use only writes, but for dynamic indexes. -/
theorem onlyWrites (hv : input.graph.vars[id]? = some v) (href : ref ∈ input.graph.references)
    (hid : ref.resolved = some id) (huse : input.useBy v ref ≠ .read) :
    input.OnlyWrites v ref ∨ input.ReachesDynamically v ref := by
  have htable : v.value ≠ .unknown → input.chunk.InitialTable v :=
    Chunk.initialTable_of_value (h.graph ▸ Array.mem_of_getElem? hv)
  have hwritten : ref.write ≠ none → ref.WrittenBy input.chunk :=
    Parser.writtenBy h.parse (h.graph ▸ href)
  rcases useBy_cases huse with ⟨hwrite, hvalue, hone⟩ | ⟨hwrite, hread⟩ |
    ⟨hvalue, mark, record, hmark, hrecord⟩
  · -- A write with one index.
    cases hwritten hwrite with
    | chain hs he hname hbase hcall hspan _ hindexing =>
      rw [hindexing] at hone
      rcases Expr.isFieldOf_or_dynamic hbase hname hone with hfield | ⟨l, l', rest, hlinks, hl, hl'⟩
      · exact .inl (.field (htable hvalue) hs he hfield hspan)
      · exact .inr (.target (htable hvalue) hs he hbase hcall hlinks hl hl' hspan)
    | fieldName hs hspan _ _ hlength =>
      exact .inl (.function (htable hvalue) hs (hlength.symm.trans hone) hspan)
    | declared _ _ _ _ hindexing => simp [hindexing] at hone
    | target _ _ _ _ hindexing => simp [hindexing] at hone
    | functionName _ _ _ _ hindexing => simp [hindexing] at hone
  · -- A write that does not read.
    cases hwritten hwrite with
    | declared hid' hv' hlocal hident _ =>
      obtain rfl := Option.some.inj (hid.symm.trans hid')
      rw [h.graph] at hv
      obtain rfl := Option.some.inj (hv.symm.trans hv')
      exact .inl (.declared hlocal hident.symm)
    | target hs hi hspan _ _ => exact .inl (.target hs hi hspan)
    | functionName _ _ hreads _ _ => simp [hread] at hreads
    | chain _ _ _ _ _ _ hreads _ => simp [hread] at hreads
    | fieldName _ _ hreads _ _ => simp [hread] at hreads
  · -- An argument.
    obtain ⟨callee, method, form, args, e, j, hs, he, hj, hcall, hspan, hwrites⟩ :=
      h.writesTo_of_mark href hmark hrecord
    cases hstatic : e.links.all Expr.isStatic with
    | true => exact .inl (.argument (htable hvalue) hs he hj hstatic hspan hwrites)
    | false => exact .inr (.argument (htable hvalue) hs he hj hcall hstatic hspan hwrites)

/-- A variable is found only if its occurrences are no uses: each of them declares the variable,
assigns to it, writes one field of a table, or passes a table to a function of the library that only
writes to it. Left out are the occurrences of a table that lead on by a dynamic index to what is
written. -/
theorem unusedVariables_sound (allowUnusedSelf : Bool) (ignore : Option Pattern) :
    ∀ x ∈ input.unusedVariables allowUnusedSelf ignore, ∃ (id : Nat) (v : Variable),
      input.graph.vars[id]? = some v ∧ input.unusedFinding? allowUnusedSelf ignore v = some x ∧
      x.primary.start = v.identifier.start ∧ x.primary.stop = v.identifier.stop ∧
      ∀ ref ∈ input.graph.references, ref.resolved = some id →
        ¬ input.ReachesDynamically v ref → input.OnlyWrites v ref := by
  intro x hx
  obtain ⟨v, hv, hfinding⟩ := List.mem_filterMap.mp hx
  obtain ⟨id, hid⟩ := List.mem_iff_getElem?.mp hv
  rw [Array.getElem?_toList] at hid
  obtain ⟨hread, hstart, hstop⟩ := unusedFinding?_eq_some hfinding
  refine ⟨id, v, hid, hfinding, hstart, hstop, fun ref href hresolved hstatic => ?_⟩
  have huse : input.useBy v ref ≠ .read := fun heq =>
    hread (heq ▸ h.useBy_mem_usesOf hid href hresolved)
  exact (h.onlyWrites hid href hresolved huse).resolve_right hstatic

end Parsed

/-- A library with one function, which only writes to its first argument. -/
def putting : Library :=
  { Library.empty with globals :=
    [("put", .ofShape (.function ⟨[⟨.optional, .any, .write⟩], false, false⟩))] }

/-- A table that is written in every way, and one that is reached through. -/
def writtenSource : Bytes :=
  "local t = \x7b\x7d t = \x7b\x7d t.a = 1 t['b'] = 2 function t.c() end put(t, 1) " ++
    "put(t.a.b, 2) local u = \x7b\x7d u.a.b = 1"

theorem Parsed.unusedVariables_sound_written :
    ∃ chunk, Parser.parse writtenSource = .ok chunk ∧
      ((ofChunk writtenSource chunk putting).unusedVariables false none).map
        (fun x => (x.primary.start, x.secondary.map Label.start)) = [(6, [20, 28, 48, 62, 72])] ∧
      ∀ x ∈ (ofChunk writtenSource chunk putting).unusedVariables false none,
        ∃ (id : Nat) (v : Variable), chunk.resolve.vars[id]? = some v ∧
          (ofChunk writtenSource chunk putting).unusedFinding? false none v = some x ∧
          x.primary.start = v.identifier.start ∧ x.primary.stop = v.identifier.stop ∧
          ∀ ref ∈ chunk.resolve.references, ref.resolved = some id →
            ¬ (ofChunk writtenSource chunk putting).ReachesDynamically v ref →
            (ofChunk writtenSource chunk putting).OnlyWrites v ref := by
  refine exists_ok_and (by decide +kernel) fun chunk hparse _ => ?_
  have hparsed : (ofChunk writtenSource chunk putting).Parsed writtenSource := ⟨hparse, rfl⟩
  exact hparsed.unusedVariables_sound false none

/-- A table whose field is passed on to be written. -/
def reachedSource : Bytes := "local g = \x7b\x7d local t = \x7b f = g \x7d put(t.f, 2) print(g)"

/-- A variable is found although a field of it is read, which leads to something that is used. -/
theorem unusedVariables_reached : ∃ chunk, Parser.parse reachedSource = .ok chunk ∧
    ((ofChunk reachedSource chunk putting).unusedVariables false none).map
      (fun x => (x.primary.start, x.secondary.map Label.start)) = [(19, [37])] ∧
    (chunk.resolve.references.toList.filter fun ref => ref.resolved == some 1).map
      (fun ref => (ref.span.start, ref.write.isSome, ref.indexing.length)) =
        [(19, true, 0), (37, false, 1)] := by
  exact exists_ok (by decide +kernel)

end LintInput

end LuaLint
