import LuaLint.Proofs.Scope.Constructs
import LuaLint.Proofs.Scope.History

/-!
# Arguments of call statements

A reference is marked as an argument only by a call statement that has an argument at its place. The
number in the mark leads to the record of the call, whose path is that of what is called, and from
there to the reference that the call begins with.

Main statements: `Resolver.Marked.step`, `Resolver.marked_run`, `Chunk.exists_argument_of_mark`.
-/

namespace LuaLint

open List

variable {span : Span} {mark : CallArgument} {id : Nat} {r' : Resolver} {c : CallEvent}
  {ref : Reference}

/-! ## Marks -/

/-- A call statement is recorded under a number. -/
def ScopeGraph.Recorded (g : ScopeGraph) (k : Nat) (c : CallEvent) : Prop :=
  ∃ record base, g.calls[k]? = some record ∧ record.path = c.path ∧
    g.references[record.reference]? = some base ∧ base.span = c.base

namespace Resolver

/-- The marks in a graph under construction come from some events. -/
def Marked (r : Resolver) (es : List ScopeEvent) : Prop :=
  ∀ ref ∈ r.graph.references, ∀ mark, ref.passedTo = some mark →
    ∃ c, .call c ∈ es ∧ c.args[mark.arg]? = some (some ref.span) ∧ r.graph.Recorded mark.call c

def marks (r : Resolver) : List (Span × Option CallArgument) :=
  r.graph.references.toList.map fun ref => (ref.span, ref.passedTo)

theorem mem_marks {r : Resolver} {mark : Option CallArgument} :
    (span, mark) ∈ r.marks ↔ ∃ ref ∈ r.graph.references, ref.span = span ∧ ref.passedTo = mark := by
  simp [marks]

theorem marks_use (r : Resolver) (u : Use) : (r.use u).marks = r.marks ++ [(u.span, none)] := by
  simp [use, marks]

theorem marks_claim (r : Resolver) (name : Bytes) : (r.claim name).marks = r.marks := by
  simp only [claim, marks, Array.toList_map, map_map]
  refine map_congr_left fun ref _ => ?_
  simp only [Function.comp]
  split <;> rfl

theorem marks_step (r : Resolver) {e : ScopeEvent} (he : ∀ c, e ≠ .call c) :
    (r.step e).marks = r.marks ++ (e.use?.map fun u => (u.span, none)).toList ∧
      (r.step e).graph.calls = r.graph.calls := by
  cases e with
  | enter kind span => exact ⟨(append_nil _).symm, rfl⟩
  | leave => exact ⟨(append_nil _).symm, rfl⟩
  | declare d => exact ⟨(append_nil _).symm, rfl⟩
  | use u => exact ⟨r.marks_use u, rfl⟩
  | assign u =>
    simp only [step, assign]
    split
    · exact ⟨r.marks_use u, rfl⟩
    · exact ⟨(marks_claim _ _).trans (r.marks_use u), rfl⟩
  | extend u definition =>
    simp only [step, extend]
    split <;> exact ⟨r.marks_use u, rfl⟩
  | call c => exact absurd rfl (he c)

/-! ## Call statements -/

variable {r : Resolver}

theorem span_of_referenceAt? (h : r.referenceAt? span = some id) :
    ∃ ref, r.graph.references[id]? = some ref ∧ ref.span = span := by
  have hfound := find?_some h
  cases href : r.graph.references[id]? with
  | none => simp [href] at hfound
  | some ref => exact ⟨ref, rfl, by simpa [href] using hfound⟩

theorem calls_markArguments (r : Resolver) (call arg : Nat) (places : List (Option Span)) :
    (r.markArguments call arg places).graph.calls = r.graph.calls := by
  induction places generalizing r arg with
  | nil => rfl
  | cons place places ih =>
    rw [markArguments, ih]
    split <;> rfl

theorem mark_of_markArguments {call arg : Nat} {places : List (Option Span)}
    (h : (span, some mark) ∈ (r.markArguments call arg places).marks) :
    (span, some mark) ∈ r.marks ∨
      mark.call = call ∧ ∃ j, mark.arg = arg + j ∧ places[j]? = some (some span) := by
  induction places generalizing r arg with
  | nil => exact .inl h
  | cons place places ih =>
    rw [markArguments] at h
    rcases ih h with hmarked | ⟨hcall, j, harg, hplace⟩
    · split at hmarked
      · exact .inl hmarked
      · next id hid =>
        -- Only the reference at the place gets a new mark.
        obtain ⟨span', rfl, hid⟩ := Option.bind_eq_some_iff.mp hid
        obtain ⟨old, hold, hspan⟩ := span_of_referenceAt? hid
        obtain ⟨ref, href, rfl, hmark⟩ := mem_marks.mp hmarked
        obtain ⟨k, hk⟩ := Array.mem_iff_getElem?.mp href
        rw [Array.getElem?_modify] at hk
        split at hk
        · next heq =>
          subst heq
          rw [hold] at hk
          cases hk
          cases hmark
          exact .inr ⟨rfl, 0, rfl, by simp [hspan]⟩
        · exact .inl (mem_marks.mpr ⟨ref, Array.mem_of_getElem? hk, rfl, hmark⟩)
    · exact .inr ⟨hcall, j + 1, by omega, by simpa using hplace⟩

theorem Retains.recorded (h : r.Retains r') {k : Nat} (hrecorded : r.graph.Recorded k c)
    (hcalls : ∀ record, r.graph.calls[k]? = some record → r'.graph.calls[k]? = some record) :
    r'.graph.Recorded k c := by
  obtain ⟨record, base, hrecord, hpath, hbase, hspan⟩ := hrecorded
  obtain ⟨base', hbase', hlater⟩ := h _ _ hbase
  have hsame : base'.bare.span = base.bare.span := by rw [hlater.bare]
  exact ⟨record, base', hcalls record hrecord, hpath, hbase', hsame.trans hspan⟩

theorem calls_call (hid : r.referenceAt? c.base = some id) :
    (r.step (.call c)).graph.calls = r.graph.calls.push ⟨c.path, id, c.span⟩ := by
  simp only [step, call, hid]
  exact calls_markArguments _ _ _ _

namespace Marked

variable {es : List ScopeEvent}

theorem keep (h : r.Marked es) {es' : List ScopeEvent} (hes : es ⊆ es') (hrefs : r.Retains r')
    (hcalls : ∀ (k : Nat) (record : CallRecord),
      r.graph.calls[k]? = some record → r'.graph.calls[k]? = some record)
    (hmark : (ref.span, some mark) ∈ r.marks) :
    ∃ c, .call c ∈ es' ∧ c.args[mark.arg]? = some (some ref.span) ∧
      r'.graph.Recorded mark.call c := by
  obtain ⟨old, hold, hspan, hpassed⟩ := mem_marks.mp hmark
  obtain ⟨c, hc, harg, hrecorded⟩ := h old hold mark hpassed
  exact ⟨c, hes hc, hspan ▸ harg, hrefs.recorded hrecorded (hcalls mark.call)⟩

/-- Each event marks only references among its own arguments. -/
theorem step (h : r.Marked es) (e : ScopeEvent) : (r.step e).Marked (es ++ [e]) := by
  have hes : es ⊆ es ++ [e] := subset_append_left _ _
  have hrefs := Retains.step r e
  intro ref href mark hmark
  have hmem : (ref.span, some mark) ∈ (r.step e).marks := mem_marks.mpr ⟨ref, href, rfl, hmark⟩
  by_cases hcall : ∃ c, e = .call c
  · obtain ⟨c, rfl⟩ := hcall
    cases hid : r.referenceAt? c.base with
    | none =>
      have hsame : r.step (.call c) = r := by simp only [Resolver.step, call, hid]
      rw [hsame] at hmem hrefs ⊢
      exact h.keep hes hrefs (fun _ _ hk => hk) hmem
    | some id =>
      have hcalls := calls_call hid
      have hkept : ∀ (k : Nat) (record : CallRecord), r.graph.calls[k]? = some record →
          (r.step (.call c)).graph.calls[k]? = some record := by
        intro k record hk
        rw [hcalls]
        exact getElem?_push_of_some hk
      have hmarked : (ref.span, some mark) ∈
          (Resolver.markArguments { r with graph := { r.graph with
            calls := r.graph.calls.push ⟨c.path, id, c.span⟩ } } r.graph.calls.size 0
              c.args).marks := by
        simpa only [Resolver.step, call, hid] using hmem
      rcases mark_of_markArguments hmarked with hold | ⟨hnumber, j, harg, hplace⟩
      · exact h.keep hes hrefs hkept hold
      · refine ⟨c, by simp, by simpa [harg] using hplace, ?_⟩
        -- The new record is the last one, and begins with the reference that was found.
        obtain ⟨base, hbase, hspan⟩ := span_of_referenceAt? hid
        obtain ⟨base', hbase', hlater⟩ := hrefs _ _ hbase
        have hsame : base'.bare.span = base.bare.span := by rw [hlater.bare]
        refine ⟨⟨c.path, id, c.span⟩, base', ?_, rfl, hbase', hsame.trans hspan⟩
        rw [hcalls, hnumber]
        exact Array.getElem?_push_size
  · obtain ⟨hmarks, hcalls⟩ := marks_step r fun c hc => hcall ⟨c, hc⟩
    rw [hmarks, mem_append] at hmem
    rcases hmem with hold | hnew
    · exact h.keep hes hrefs (fun k record hk => hcalls ▸ hk) hold
    · cases hu : e.use? with
      | none => simp [hu] at hnew
      | some u => simp [hu] at hnew

end Marked

/-- So every mark of a run comes from a call. -/
theorem marked_run (es : List ScopeEvent) : (start.run es).Marked es := by
  induction es using reverseRec with
  | nil => exact fun ref href => absurd href (Array.not_mem_empty ref)
  | append_singleton es e ih =>
    rw [run_append]
    exact ih.step e

end Resolver

/-! ## Chunks -/

theorem Call.exists_of_mem_events {c : Call} {ev : CallEvent} (h : .call ev ∈ c.events) :
    ∃ i, c.callee.base = .name i ∧ c.callee.hasCall = false ∧ c.expr.namePath? = some ev.path ∧
      ev.base = i.span ∧ ev.args = c.args.map Expr.indexedName? := by
  unfold Call.events at h
  split at h
  · next i path hbase hfirst hpath =>
    cases mem_singleton.mp h
    exact ⟨i, hbase, by simpa [Call.isFirst] using hfirst, hpath, rfl, rfl⟩
  · cases h

theorem Expr.indexedName?_eq_some {e : Expr} (h : e.indexedName? = some span) :
    ∃ i, e.base = .name i ∧ e.hasCall = false ∧ span = i.span := by
  unfold indexedName? at h
  split at h
  · next i hbase =>
    split at h
    · cases h
    · next hcall =>
      cases h
      exact ⟨i, hbase, by simpa using hcall, rfl⟩
  · cases h

/-- The call statement behind a mark. The reference stands at the base of the argument with the
number of the mark, and the record of the call has its path and begins with the name that is
called. -/
theorem Chunk.exists_argument_of_mark {c : Chunk} (href : ref ∈ c.resolve.references)
    (hmark : ref.passedTo = some mark) :
    ∃ (callee : Expr) (method : Option Ident) (form : CallForm) (args : List Expr) (i j : Ident)
      (e : Expr) (record : CallRecord) (base : Reference),
      .stmt (.call callee method form args) ∈ c.nodes ∧ args[mark.arg]? = some e ∧
      e.base = .name j ∧ e.hasCall = false ∧ ref.span = j.span ∧
      callee.base = .name i ∧ callee.hasCall = false ∧
      c.resolve.calls[mark.call]? = some record ∧
      (Expr.call callee method form args).namePath? = some record.path ∧
      c.resolve.references[record.reference]? = some base ∧ base.span = i.span := by
  obtain ⟨ev, hev, harg, record, base, hrecord, hpath, hbase, hspan⟩ :=
    Resolver.marked_run c.events ref href mark hmark
  cases c.arises hev with
  | @call callee method form args _ hs hmem =>
    obtain ⟨i, hcallee, hfirst, hname, hplace, hargs⟩ := Call.exists_of_mem_events hmem
    rw [hargs, getElem?_map] at harg
    obtain ⟨e, he, hindexed⟩ := Option.map_eq_some_iff.mp harg
    obtain ⟨j, hej, hcall, hj⟩ := Expr.indexedName?_eq_some hindexed
    exact ⟨callee, method, form, args, i, j, e, record, base, hs, he, hej, hcall, hj, hcallee,
      hfirst, hrecord, hpath ▸ hname, hbase, hspan.trans hplace⟩

end LuaLint
