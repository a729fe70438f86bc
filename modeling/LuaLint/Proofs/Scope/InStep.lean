import LuaLint.Scope.Event
import LuaLint.Proofs.Syntax.Relocation

/-!
# Scope events of trees elsewhere

A tree that stands elsewhere has the events of the tree that it comes from: the same scopes open and
close, and the names that are declared and used become what the relocation says. The two exceptions
are names that no token spells: the `self` of a method, and the name under which `...` goes.
-/

namespace LuaLint

/-- The name of a declaration becomes what a relocation says, unless no name is spelled there. -/
def Declaration.Becomes (r : Relocation) (d d' : Declaration) : Prop :=
  d.isSelf = false ∧ d'.name = r.name d.identifier.start d.name ∨
    (d.isSelf = true ∨ d.name = varargName) ∧ d'.name = d.name

/-- A name that is used becomes what a relocation says, unless it is `...`. -/
structure Use.Becomes (r : Relocation) (u u' : Use) : Prop where
  read : u'.usage.read = u.usage.read
  name : u'.name = r.name u.span.start u.name ∨ u.name = varargName ∧ u'.name = u.name

/-- Two sequences of events do the same, but for what a relocation makes of names. Either of them
may be told of call statements of which the other one is not. -/
inductive InStep (r : Relocation) : List ScopeEvent → List ScopeEvent → Prop where
  | nil : InStep r [] []
  | enter {kind : ScopeKind} {span span' : Span} {es es' : List ScopeEvent} :
      InStep r es es' → InStep r (.enter kind span :: es) (.enter kind span' :: es')
  | leave {es es' : List ScopeEvent} : InStep r es es' → InStep r (.leave :: es) (.leave :: es')
  | declare {d d' : Declaration} {es es' : List ScopeEvent} :
      d.Becomes r d' → InStep r es es' → InStep r (.declare d :: es) (.declare d' :: es')
  | use {u u' : Use} {es es' : List ScopeEvent} :
      u.Becomes r u' → InStep r es es' → InStep r (.use u :: es) (.use u' :: es')
  | assign {u u' : Use} {es es' : List ScopeEvent} :
      u.Becomes r u' → InStep r es es' → InStep r (.assign u :: es) (.assign u' :: es')
  | extend {u u' : Use} {definition definition' : Span} {es es' : List ScopeEvent} :
      u.Becomes r u' → InStep r es es' →
      InStep r (.extend u definition :: es) (.extend u' definition' :: es')
  | callBefore {c : CallEvent} {es es' : List ScopeEvent} :
      InStep r es es' → InStep r (.call c :: es) es'
  | callAfter {c : CallEvent} {es es' : List ScopeEvent} :
      InStep r es es' → InStep r es (.call c :: es')

namespace InStep

variable {r : Relocation} {es es' fs fs' : List ScopeEvent}

theorem append (h : InStep r es es') (h' : InStep r fs fs') : InStep r (es ++ fs) (es' ++ fs') := by
  induction h with
  | nil => exact h'
  | enter _ ih => exact .enter ih
  | leave _ ih => exact .leave ih
  | declare hd _ ih => exact .declare hd ih
  | use hu _ ih => exact .use hu ih
  | assign hu _ ih => exact .assign hu ih
  | extend hu _ ih => exact .extend hu ih
  | callBefore _ ih => exact .callBefore ih
  | callAfter _ ih => exact .callAfter ih

theorem scope (kind : ScopeKind) (span span' : Span) (h : InStep r es es') :
    InStep r (.enter kind span :: es ++ [.leave]) (.enter kind span' :: es' ++ [.leave]) :=
  .enter (h.append (.leave .nil))

theorem calls (c c' : Call) : InStep r c.events c'.events := by
  have hafter : InStep r [] c'.events := by
    unfold Call.events
    split
    · exact .callAfter .nil
    · exact .nil
  unfold Call.events at *
  split
  · exact .callBefore hafter
  · exact hafter

end InStep

theorem Use.becomes_of_ident (r : Relocation) (i : Ident) {usage usage' : Usage}
    (h : usage'.read = usage.read) :
    Use.Becomes r ⟨i.name, i.span, usage⟩ ⟨(i.relocate r).name, (i.relocate r).span, usage'⟩ :=
  ⟨h, .inl rfl⟩

end LuaLint
