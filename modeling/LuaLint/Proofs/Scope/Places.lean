import Mathlib.Data.List.Nodup
import Mathlib.Data.List.Perm.Subperm
import LuaLint.Proofs.Scope.Acts

/-!
# The names and places of scope events

Every event that declares or uses a name does so at a name of the chunk with that role, except that
`self` is declared where the method is named. Each declaration stands at a name of its own, and so
does each use. The two are told apart, since a name that takes a value where it is declared is also
used there.

Main statements: `Chunk.named_events`, `Spelled.unique`, `Parser.nodup_places`.
-/

namespace LuaLint

open List Token Mention

variable {ms : List Mention} {e : ScopeEvent} {u : Use} {m : Mention} {r : Relocation}
  {env env' : Env} {os : List Outline} {bs : List Binding} {es fs : List ScopeEvent}
  {source : Bytes} {chunk : Chunk}

/-! ## Events and names -/

theorem interleave_perm {α : Type} (targets values : List (List α)) :
    (interleave targets values).Perm (targets.flatten ++ values.flatten) := by
  induction targets generalizing values with
  | nil => exact .refl _
  | cons target targets ih =>
    cases values with
    | nil => simpa [interleave] using List.Perm.append_left target (ih [])
    | cons value values =>
      simp only [interleave, flatten_cons, append_assoc]
      refine (perm_append_comm_assoc _ _ _).trans (.append_left _ ?_)
      exact (List.Perm.append_left _ (ih values)).trans (perm_append_comm_assoc _ _ _)

theorem flatten_valueEvents (es : List Expr) :
    (Expr.valueEvents es).flatten = Expr.eventsOf es := by
  induction es with
  | nil => simp [Expr.valueEvents, Expr.eventsOf]
  | cons e es ih => simp [Expr.valueEvents, Expr.eventsOf, ih]

/-- Where the name stands that an event uses, or that it declares. -/
def ScopeEvent.place? (uses : Bool) : ScopeEvent → Option Nat
  | .declare d => if uses then none else some d.identifier.start
  | .use u => if uses then some u.span.start else none
  | .assign u => if uses then some u.span.start else none
  | .extend u _ => if uses then some u.span.start else none
  | .enter _ _ => none
  | .leave => none
  | .call _ => none

/-- Where a name stands whose role it is to be used, or to be declared. A method declares its
`self`. -/
def Mention.place? (uses : Bool) (m : Mention) : Option Nat :=
  if if uses then m.role.isUse else m.role.isDeclaration || m.role == .method then
    some m.span.start
  else none

/-- The event declares or uses a name that has the role for it, or it declares the `self` of a
method. -/
def ScopeEvent.NamedIn (ms : List Mention) : ScopeEvent → Prop
  | .declare d =>
    if d.isSelf then d.name = "self" ∧ ∃ name, ⟨.method, name, d.identifier⟩ ∈ ms
    else ∃ role, role.isDeclaration = true ∧ ⟨role, d.name, d.identifier⟩ ∈ ms
  | .use u | .assign u | .extend u _ =>
    ∃ role, role.isUse = true ∧ ⟨role, u.name, u.span⟩ ∈ ms
  | .enter _ _ | .leave | .call _ => True

theorem ScopeEvent.NamedIn.mono {ms' : List Mention} (h : e.NamedIn ms) (hsub : ms ⊆ ms') :
    e.NamedIn ms' := by
  have hwider : ∀ {p : NameRole → Bool} {name : Bytes} {span : Span},
      (∃ role, p role = true ∧ (⟨role, name, span⟩ : Mention) ∈ ms) →
      ∃ role, p role = true ∧ (⟨role, name, span⟩ : Mention) ∈ ms' := by
    rintro p name span ⟨role, hrole, hmem⟩
    exact ⟨role, hrole, hsub hmem⟩
  cases e with
  | declare d =>
    rw [NamedIn] at h ⊢
    split
    · rw [if_pos ‹_›] at h
      obtain ⟨hname, name, hmem⟩ := h
      exact ⟨hname, name, hsub hmem⟩
    · rw [if_neg ‹_›] at h
      exact hwider h
  | use u => exact hwider h
  | assign u => exact hwider h
  | extend u definition => exact hwider h
  | enter kind span => trivial
  | leave => trivial
  | call c => trivial

theorem ScopeEvent.namedIn_iff_of_use? (hu : e.use? = some u) :
    e.NamedIn ms ↔ ∃ role, role.isUse = true ∧ ⟨role, u.name, u.span⟩ ∈ ms := by
  cases e <;> cases hu <;> exact Iff.rfl

theorem ScopeEvent.place?_of_use? (hu : e.use? = some u) : e.place? true = some u.span.start := by
  cases e <;> cases hu <;> rfl

/-- Some events declare and use some names, each of them at most once. -/
structure Named (ms : List Mention) (es : List ScopeEvent) : Prop where
  names : ∀ e ∈ es, e.NamedIn ms
  places : ∀ uses, (es.filterMap (ScopeEvent.place? uses)).Subperm
    (ms.filterMap (Mention.place? uses))

namespace Named

variable {ms ms' : List Mention} {es es' : List ScopeEvent} {e : ScopeEvent} {i : Ident}
  {role : NameRole}

theorem nil (ms : List Mention) : Named ms [] :=
  ⟨forall_mem_nil _, fun _ => nil_subperm⟩

theorem append (h : Named ms es) (h' : Named ms' es') : Named (ms ++ ms') (es ++ es') := by
  refine ⟨forall_mem_append.mpr ⟨fun e he => ?_, fun e he => ?_⟩, fun uses => ?_⟩
  · exact (h.names e he).mono (subset_append_left _ _)
  · exact (h'.names e he).mono (subset_append_right _ _)
  · rw [filterMap_append, filterMap_append]
    exact (h.places uses).append (h'.places uses)

theorem perm (h : Named ms es) (hms : ms.Perm ms') (hes : es.Perm es') : Named ms' es' := by
  refine ⟨fun e he => (h.names e (hes.mem_iff.mpr he)).mono hms.subset, fun uses => ?_⟩
  exact ((hes.filterMap _).symm.subperm.trans (h.places uses)).trans (hms.filterMap _).subperm

theorem more (h : Named ms es) (ms' : List Mention) : Named (ms ++ ms') es := by
  simpa using h.append (nil ms')

theorem silent (h : Named ms es) (h' : Named [] es') : Named ms (es ++ es') := by
  simpa using h.append h'

theorem single (he : e.NamedIn [m])
    (hplace : ∀ uses place, e.place? uses = some place → m.place? uses = some place) :
    Named [m] [e] := by
  refine ⟨forall_mem_singleton.mpr he, fun uses => ?_⟩
  cases hp : e.place? uses with
  | none =>
    rw [filterMap_cons_none hp]
    exact nil_subperm
  | some place =>
    rw [filterMap_cons_some hp, filterMap_cons_some (hplace uses place hp)]
    exact List.Subperm.refl _

theorem quiet (he : e.NamedIn []) (hplace : ∀ uses, e.place? uses = none) : Named [] [e] := by
  refine ⟨forall_mem_singleton.mpr he, fun uses => ?_⟩
  rw [filterMap_cons_none (hplace uses)]
  exact nil_subperm

theorem enter (kind : ScopeKind) (span : Span) : Named [] [.enter kind span] :=
  quiet trivial fun _ => rfl

theorem leave : Named [] [.leave] := quiet trivial fun _ => rfl

theorem scope (kind : ScopeKind) (span : Span) (h : Named ms es) :
    Named ms (.enter kind span :: es ++ [.leave]) := ((enter kind span).append h).silent leave

theorem calls (c : Call) : Named [] c.events := by
  unfold Call.events
  split
  · exact quiet trivial fun _ => rfl
  · exact nil _

theorem use (hrole : role.isUse = true) (hu : e.use? = some u) (hname : u.name = i.name)
    (hspan : u.span = i.span) : Named [i.mention role] [e] := by
  refine single ((ScopeEvent.namedIn_iff_of_use? hu).mpr ⟨role, hrole, ?_⟩) fun uses place hp => ?_
  · rw [hname, hspan]
    exact mem_singleton_self _
  · cases uses with
    | true =>
      rw [ScopeEvent.place?_of_use? hu, hspan] at hp
      simpa [place?, Ident.mention, hrole] using hp
    | false => cases e <;> cases hu <;> cases hp

theorem declare (hrole : role.isDeclaration = true) (definition : Span) (attrib : Option Bytes)
    (value : InitialValue) :
    Named [i.mention role] [.declare ⟨i.name, i.span, definition, false, attrib, value⟩] := by
  refine single (show ScopeEvent.NamedIn _ _ from ⟨role, hrole, mem_singleton_self _⟩)
    fun uses place hp => ?_
  cases uses with
  | true => cases hp
  | false =>
    rw [← hp]
    simp [place?, ScopeEvent.place?, Ident.mention, hrole]

theorem own (hrole : role.isOwn = true) (definition : Span) (attrib : Option Bytes)
    (value : InitialValue) (usage : Usage) :
    Named [i.mention role] [.declare ⟨i.name, i.span, definition, false, attrib, value⟩,
      .use ⟨i.name, i.span, usage⟩] := by
  obtain ⟨huse, hdeclaration⟩ := Bool.and_eq_true_iff.mp hrole
  have hdeclare := declare (i := i) hdeclaration definition attrib value
  have hused : Named [i.mention role] [.use ⟨i.name, i.span, usage⟩] := use huse rfl rfl rfl
  refine ⟨forall_mem_append.mpr ⟨hdeclare.names, hused.names⟩, fun uses => ?_⟩
  cases uses with
  | true => exact hused.places true
  | false => exact hdeclare.places false

theorem self (m : Ident) : Named [m.mention .method] [m.selfEvent] := by
  refine single (show ScopeEvent.NamedIn _ _ from ⟨rfl, m.name, mem_singleton_self _⟩)
    fun uses place hp => ?_
  cases uses with
  | true => cases hp
  | false => exact hp

end Named

theorem Acts.named (h : Acts r env env' ms os bs es fs) : Named ms es := by
  induction h with
  | nil => exact .nil _
  | join _ _ hms _ _ _ _ _ ih ih' => exact (ih.append ih').perm hms (.refl _)
  | more ms' _ _ _ ih => exact ih.more ms'
  | node _ _ _ ih => exact ih
  | lookup role hrole _ hu _ => exact .use (Bool.and_eq_true_iff.mp hrole).1 hu rfl rfl
  | own role hrole _ _ => exact .own hrole _ _ _ _
  | declare role _ hrole _ _ => exact .declare hrole _ _ _
  | self m => exact .self m
  | calls c _ _ ih => exact ih.silent (.calls c)
  | scope _ _ _ _ _ ih => exact ih.scope _ _

/-! ## Names that are used -/

/-- Some occurrences stand where some names stand that are used. Names that are declared there as
well refer to themselves. -/
structure Uses (bs : List Binding) (ms : List Mention) : Prop where
  places : (bs.map Binding.use).Perm (ms.filterMap Mention.use?)
  own : ∀ m ∈ ms, m.role.isOwn = true → ⟨m.span, some m.span⟩ ∈ bs

namespace Uses

variable {bs bs' : List Binding} {ms ms' : List Mention} {i : Ident} {role : NameRole}

theorem append (h : Uses bs ms) (h' : Uses bs' ms') : Uses (bs ++ bs') (ms ++ ms') := by
  constructor
  · rw [map_append, filterMap_append]
    exact h.places.append h'.places
  · rw [forall_mem_append]
    refine ⟨fun m hm hrole => ?_, fun m hm hrole => ?_⟩
    · exact mem_append_left _ (h.own m hm hrole)
    · exact mem_append_right _ (h'.own m hm hrole)

theorem perm (h : Uses bs ms) (hbs : bs.Perm bs') (hms : ms.Perm ms') : Uses bs' ms' := by
  refine ⟨((hbs.map _).symm.trans h.places).trans (hms.filterMap _), fun m hm hrole => ?_⟩
  exact hbs.subset (h.own m (hms.mem_iff.mpr hm) hrole)

theorem name (hrole : role.isUse = true) {decl : Option Span}
    (hown : role.isOwn = true → decl = some i.span) : Uses [⟨i.span, decl⟩] [i.mention role] := by
  have huse : (i.mention role).use? = some i.span := by simp [Ident.mention, use?, hrole]
  constructor
  · rw [filterMap_cons_some huse]
    exact .refl _
  · refine forall_mem_singleton.mpr fun hrole => mem_singleton.mpr ?_
    rw [hown hrole]
    rfl

theorem lookup (hrole : role.isLookup = true) (decl : Option Span) :
    Uses [⟨i.span, decl⟩] [i.mention role] := by
  rw [NameRole.isLookup, Bool.and_eq_true, Bool.not_eq_true'] at hrole
  refine name hrole.1 fun hown => ?_
  rw [NameRole.isOwn, hrole.2, Bool.and_false] at hown
  cases hown

theorem unused (h : ∀ m ∈ ms, m.role.isUse = false) : Uses [] ms := by
  have hnone : ms.filterMap use? = [] :=
    filterMap_eq_nil_iff.mpr fun m hm => by simp [use?, h m hm]
  refine ⟨by rw [hnone]; exact .nil, fun m hm hrole => ?_⟩
  rw [NameRole.isOwn, h m hm] at hrole
  cases hrole

end Uses

theorem Acts.uses (h : Acts r env env' ms os bs es fs) : Uses bs ms := by
  induction h with
  | nil => exact .unused (forall_mem_nil _)
  | join _ _ hms _ hbs _ _ _ ih ih' => exact (ih.append ih').perm hbs hms
  | more _ _ hms _ ih => simpa using ih.append (.unused hms)
  | node _ _ _ ih => exact ih
  | lookup role hrole _ _ _ => exact .lookup hrole _
  | own role hrole _ _ => exact .name (Bool.and_eq_true_iff.mp hrole).1 fun _ => rfl
  | declare role _ _ huse _ => exact .unused (forall_mem_singleton.mpr huse)
  | self m => exact .unused (forall_mem_singleton.mpr rfl)
  | calls _ _ _ ih => exact ih
  | scope _ _ _ _ _ ih => exact ih

/-- Occurrences are names that are used. -/
theorem Chunk.uses_bindings (c : Chunk) : Uses c.bindings c.mentions :=
  (Block.acts .still .empty c.block).uses

/-! ## Names and tokens -/

theorem Ordered.nodup_pos {ts : List Token} (h : Ordered ts) : (ts.map pos).Nodup := by
  rw [List.Nodup, pairwise_map]
  refine h.pairwise.imp_of_mem fun {t u} ht _ hle => ?_
  have hlt := h.nonempty t ht
  omega

theorem Mention.use?_eq_some {span : Span} :
    m.use? = some span ↔ m.role.isUse = true ∧ m.span = span := by
  cases hrole : m.role.isUse <;> simp [use?, hrole]

namespace Spelled

variable {ms : List Mention} {ts : List Token} {m : Mention} {t : Token}

variable (h : Spelled ms ts)
include h

theorem at_of_mem_zip (hmem : (m, t) ∈ ms.zip (names ts)) : m.At t :=
  forall₂_iff_zip.mp h |>.2 hmem

theorem map_snd_zip : (ms.zip (names ts)).map Prod.snd = names ts :=
  List.map_snd_zip (Nat.le_of_eq (List.Forall₂.length_eq h).symm)

theorem exists_token (hm : m ∈ ms) : ∃ t, (m, t) ∈ ms.zip (names ts) := by
  have hfst := map_fst_zip (Nat.le_of_eq (List.Forall₂.length_eq h))
  rw [← hfst] at hm
  obtain ⟨⟨m', t⟩, hmem, rfl⟩ := mem_map.mp hm
  exact ⟨t, hmem⟩

/-- A token spells one name. -/
theorem unique (hts : Ordered ts) {m' : Mention} {t' : Token}
    (hmem : (m, t) ∈ ms.zip (names ts)) (hmem' : (m', t') ∈ ms.zip (names ts))
    (hpos : t.pos = t'.pos) : m = m' := by
  have hnodup : ((ms.zip (names ts)).map fun p => p.2.pos).Nodup := by
    have hmap := congrArg (map pos) h.map_snd_zip
    rw [map_map] at hmap
    refine Eq.subst hmap.symm ?_
    exact hts.nodup_pos.sublist (filter_sublist.map _)
  exact congrArg Prod.fst (inj_on_of_nodup_map hnodup hmem hmem' hpos)

theorem mem_uses_iff (hts : Ordered ts) (hmem : (m, t) ∈ ms.zip (names ts)) :
    (⟨t.pos, t.stop⟩ : Span) ∈ ms.filterMap use? ↔ m.role.isUse = true := by
  rw [mem_filterMap]
  constructor
  · -- A use at that place belongs to a name that the same token spells.
    rintro ⟨m', hm', huse⟩
    obtain ⟨hrole, hspan⟩ := use?_eq_some.mp huse
    obtain ⟨t', hmem'⟩ := h.exists_token hm'
    have heq := hspan.symm.trans (h.at_of_mem_zip hmem').2
    rw [h.unique hts hmem hmem' (congrArg Span.start heq)]
    exact hrole
  · intro hrole
    have hspan := (h.at_of_mem_zip hmem).2
    exact ⟨m, (of_mem_zip hmem).1, use?_eq_some.mpr ⟨hrole, hspan⟩⟩

theorem places_sublist (uses : Bool) :
    (ms.filterMap (place? uses)).Sublist ((names ts).map pos) := by
  unfold Spelled at h
  generalize names ts = us at h
  induction h with
  | nil => exact .slnil
  | @cons m t ms us hm _ ih =>
    cases hplace : m.place? uses with
    | none =>
      rw [filterMap_cons_none hplace]
      exact ih.cons _
    | some place =>
      rw [filterMap_cons_some hplace, map_cons]
      obtain ⟨-, hspan⟩ := Option.ite_none_right_eq_some.mp hplace
      rw [hm.2] at hspan
      cases hspan
      exact ih.cons_cons _

end Spelled

theorem Parser.spelled_of_parse (h : Parser.parse source = .ok chunk) :
    Spelled chunk.mentions (Lexer.codeTokens source) := by
  obtain ⟨hread, -⟩ := chunk_of_parse h
  have hblock : chunk.mentions = Stmt.mentionsOf chunk.block.stmts := by
    rw [Chunk.mentions]
    cases chunk.block
    rfl
  rw [hblock]
  exact hread.reads.spelled .value

/-- Events take place at names with fitting roles. -/
theorem Chunk.named_events (c : Chunk) : Named c.mentions c.events :=
  .scope .file ⟨0, c.size⟩ (Block.acts .still .empty c.block).named

/-- In a parsed chunk no two declarations stand at one place, and no two uses. -/
theorem Parser.nodup_places (h : Parser.parse source = .ok chunk) (uses : Bool) :
    (chunk.events.filterMap (ScopeEvent.place? uses)).Nodup := by
  have hnodup := (nested_of_parse h).ordered.nodup_pos.sublist
    (((spelled_of_parse h).places_sublist uses).trans (filter_sublist.map pos))
  obtain ⟨places, hperm, hsub⟩ := chunk.named_events.places uses
  exact hperm.nodup_iff.mp (hnodup.sublist hsub)

end LuaLint
