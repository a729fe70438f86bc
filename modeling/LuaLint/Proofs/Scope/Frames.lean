import LuaLint.Proofs.Scope.Acts
import LuaLint.Proofs.Scope.Balance

/-!
# Scope events and lexical scoping

Scope events act on a stack of frames, one for each open scope, that holds nothing but names and
their declarations. A frame may also hold the name of a global, which has no declaration. The events
of a chunk meet the occurrences of its names with the declarations that lexical scoping gives them.

Main statements: `Block.balanced`, `Chunk.occurrences_events`.
-/

namespace LuaLint

/-! ## Frames -/

/-- An open scope, with the names known in it, the latest first. -/
structure Frame where
  /-- What introduced the scope. -/
  kind : ScopeKind
  /-- The names, with their declarations. A global that has been written has none. -/
  entries : List (Bytes × Option Span)

namespace Frame

/-- What is known of a name when some scopes are open, innermost first. -/
def lookup? (name : Bytes) : List Frame → Option (Option Span)
  | [] => none
  | f :: outer =>
    match f.entries.find? fun entry => entry.1 == name with
    | some entry => some entry.2
    | none => if f.kind.blocked.contains name then none else lookup? name outer

def target (fs : List Frame) (name : Bytes) : Option Span := (lookup? name fs).join

def insert (entry : Bytes × Option Span) : List Frame → List Frame
  | [] => []
  | f :: outer => ⟨f.kind, entry :: f.entries⟩ :: outer

def step (fs : List Frame) : ScopeEvent → List Frame
  | .enter kind _ => ⟨kind, []⟩ :: fs
  | .leave => fs.tail
  | .declare d => insert (d.name, some d.identifier) fs
  | .assign u => if (lookup? u.name fs).isNone then insert (u.name, none) fs else fs
  | .use _ => fs
  | .extend _ _ => fs
  | .call _ => fs

def occurrence? (fs : List Frame) : ScopeEvent → Option Binding
  | .use u => some ⟨u.span, target fs u.name⟩
  | .assign u => some ⟨u.span, target fs u.name⟩
  | .extend u _ => some ⟨u.span, target fs u.name⟩
  | _ => none

def occurrences : List Frame → List ScopeEvent → List Binding
  | _, [] => []
  | fs, e :: es => (occurrence? fs e).toList ++ occurrences (step fs e) es

theorem occurrences_append (fs : List Frame) (es es' : List ScopeEvent) :
    occurrences fs (es ++ es') = occurrences fs es ++ occurrences (es.foldl step fs) es' := by
  induction es generalizing fs with
  | nil => rfl
  | cons e es ih => simp [occurrences, ih]

/-! ## Names that become known -/

theorem target_insert (f : Frame) (outer : List Frame) (name : Bytes) (decl : Option Span) :
    target (insert (name, decl) (f :: outer)) =
      fun n => if n = name then decl else target (f :: outer) n := by
  funext n
  by_cases hn : n = name
  · subst hn
    simp [target, insert, lookup?]
  · have hne : (name == n) = false := by simpa using fun h => hn h.symm
    simp [target, insert, lookup?, hne, hn]

theorem target_enter (kind : ScopeKind) (fs : List Frame) :
    target (⟨kind, []⟩ :: fs) = Env.enter (target fs) kind := by
  funext n
  cases kind with
  | function =>
    by_cases hn : n = varargName <;>
      simp [target, lookup?, ScopeKind.blocked, Env.enter, Env.inFunction, hn]
  | _ => simp [target, lookup?, ScopeKind.blocked, Env.enter]

end Frame

/-! ## Events from an environment -/

open LuaLint.Frame

/-- From an environment, some balanced events meet some occurrences and leave another environment.
They leave the scopes around the innermost one as they are. -/
structure Plays (env env' : Env) (es : List ScopeEvent) (bs : List Binding) : Prop where
  balanced : Balanced es
  meets : ∀ f outer, target (f :: outer) = env →
    ∃ f', es.foldl step (f :: outer) = f' :: outer ∧ target (f' :: outer) = env' ∧
      (occurrences (f :: outer) es).Perm bs

namespace Plays

variable {env env' env'' : Env} {es es' : List ScopeEvent} {bs bs' : List Binding}

theorem nil (env : Env) : Plays env env [] [] :=
  ⟨.nil, fun f _ h => ⟨f, rfl, h, .refl _⟩⟩

theorem append (h : Plays env env' es bs) (h' : Plays env' env'' es' bs') :
    Plays env env'' (es ++ es') (bs ++ bs') := by
  refine ⟨h.balanced.append h'.balanced, fun f outer hf => ?_⟩
  obtain ⟨f₁, hfold, hf₁, hbs⟩ := h.meets f outer hf
  obtain ⟨f₂, hfold', hf₂, hbs'⟩ := h'.meets f₁ outer hf₁
  refine ⟨f₂, by rw [List.foldl_append, hfold, hfold'], hf₂, ?_⟩
  rw [occurrences_append, hfold]
  exact hbs.append hbs'

theorem perm (h : Plays env env' es bs) (hbs : bs.Perm bs') : Plays env env' es bs' := by
  refine ⟨h.balanced, fun f outer hf => ?_⟩
  obtain ⟨f', hfold, hf', hocc⟩ := h.meets f outer hf
  exact ⟨f', hfold, hf', hocc.trans hbs⟩

theorem use (env : Env) (u : Use) : Plays env env [.use u] [⟨u.span, env u.name⟩] := by
  refine ⟨.plain trivial, ?_⟩
  rintro f outer rfl
  exact ⟨f, rfl, rfl, .refl _⟩

theorem extend (env : Env) (u : Use) (definition : Span) :
    Plays env env [.extend u definition] [⟨u.span, env u.name⟩] := by
  refine ⟨.plain trivial, ?_⟩
  rintro f outer rfl
  exact ⟨f, rfl, rfl, .refl _⟩

theorem calls (env : Env) (c : Call) : Plays env env c.events [] := by
  unfold Call.events
  split
  · exact ⟨.plain trivial, fun f _ h => ⟨f, rfl, h, .refl _⟩⟩
  · exact nil env

theorem assign (env : Env) (u : Use) : Plays env env [.assign u] [⟨u.span, env u.name⟩] := by
  refine ⟨.plain trivial, ?_⟩
  rintro f outer rfl
  cases hlookup : lookup? u.name (f :: outer) with
  | none =>
    have htarget : target (f :: outer) u.name = none := by simp [target, hlookup]
    refine ⟨⟨f.kind, (u.name, none) :: f.entries⟩, ?_, ?_, .refl _⟩
    · simp [step, hlookup, Frame.insert]
    · refine (target_insert f outer u.name none).trans ?_
      funext n
      by_cases hn : n = u.name <;> simp [hn, htarget]
  | some decl => exact ⟨f, by simp [step, hlookup], rfl, .refl _⟩

theorem declare (env : Env) (d : Declaration) :
    Plays env (env.declare d.name d.identifier) [.declare d] [] := by
  refine ⟨.plain trivial, ?_⟩
  rintro f outer rfl
  exact ⟨⟨f.kind, (d.name, some d.identifier) :: f.entries⟩, rfl, target_insert f outer _ _,
    .refl _⟩

theorem own (env : Env) (d : Declaration) (usage : Usage) :
    Plays env (env.declare d.name d.identifier) [.declare d, .use ⟨d.name, d.identifier, usage⟩]
      [⟨d.identifier, some d.identifier⟩] := by
  have huse := use (env.declare d.name d.identifier) ⟨d.name, d.identifier, usage⟩
  have hself : env.declare d.name d.identifier d.name = some d.identifier := by simp [Env.declare]
  rw [hself] at huse
  exact (declare env d).append huse

theorem closed {kind : ScopeKind} {inner : Env} (span : Span) (hinner : env.enter kind = inner)
    (h : Plays inner env' es bs) : Plays env env (.enter kind span :: (es ++ [.leave])) bs := by
  refine ⟨h.balanced.scope kind span, fun f outer hf => ?_⟩
  obtain ⟨f', hfold, -, hbs⟩ := h.meets ⟨kind, []⟩ (f :: outer)
    ((target_enter kind _).trans (hf ▸ hinner))
  refine ⟨f, ?_, hf, ?_⟩
  · simp [step, hfold]
  · simpa [occurrences, occurrence?, step, occurrences_append, hfold] using hbs

end Plays

/-! ## Syntax -/

theorem Acts.plays {r : Relocation} {env env' : Env} {ms : List Mention} {os : List Outline}
    {bs : List Binding} {es fs : List ScopeEvent} (h : Acts r env env' ms os bs es fs) :
    Plays env env' es bs := by
  induction h with
  | nil env => exact .nil env
  | join _ _ _ _ hbs _ _ _ ih ih' => exact (ih.append ih').perm hbs
  | more _ _ _ _ ih => exact ih
  | node _ _ _ ih => exact ih
  | @lookup env n e e' usage i role _ _ hu _ =>
    cases e with
    | use u => cases hu; exact .use env _
    | assign u => cases hu; exact .assign env _
    | extend u definition => cases hu; exact .extend env _ definition
    | _ => cases hu
  | own => exact .own _ ⟨_, _, _, _, _, _⟩ _
  | declare => exact .declare _ ⟨_, _, _, _, _, _⟩
  | self m => exact .declare _ ⟨_, _, _, _, _, _⟩
  | calls c _ _ ih => simpa using ih.append (.calls _ c)
  | scope _ _ _ hinner _ ih => exact .closed _ hinner ih

/-- A block closes what it opens. -/
theorem Block.balanced (b : Block) : Balanced b.events :=
  (Block.acts .still .empty b).plays.balanced

/-- The events of a chunk meet the occurrences of its names with the declarations that lexical
scoping gives them. -/
theorem Chunk.occurrences_events (c : Chunk) : (occurrences [] c.events).Perm c.bindings := by
  obtain ⟨f, hfold, -, hbs⟩ :=
    (Block.acts .still .empty c.block).plays.meets ⟨.file, []⟩ [] (target_enter .file [])
  simpa [Chunk.events, Chunk.bindings, occurrences, occurrence?, step, occurrences_append, hfold]
    using hbs

end LuaLint
