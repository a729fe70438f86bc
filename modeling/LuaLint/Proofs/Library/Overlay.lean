import LuaLint.Proofs.Library.Regular

/-!
# Layers of fields

Layered maps of fields are described by their look-ups: a removal marker hides the field below it,
any other field takes its place, and two fields with nested fields are merged. All that is known of
layered libraries follows from this.

Main statements: `Field.get?_overlayAll`, `Field.overlayAll_eq_self`, `Library.Regular.extend`,
`Library.extend_extend`.
-/

namespace LuaLint

open NameMap LuaLint.Field

variable {f : Field} {P Q : Field → Prop}

namespace Field

/-! ## Look-ups in layers -/

/-- The nested fields of a field that show through the one above it. -/
def kept (under : Option Field) (f : Field) : NameMap Field :=
  match under with
  | some u => if f.hasChildren && u.hasChildren then u.children else []
  | none => []

theorem overlay_eq (under : Option Field) (f : Field) :
    overlay under f = f.withChildren (overlayAll (kept under f) f.children) := by
  cases f
  cases under <;> rfl

@[simp] theorem shape_overlay (under : Option Field) (f : Field) :
    (overlay under f).shape = f.shape := by
  rw [overlay_eq, shape_withChildren]

theorem children_overlay (under : Option Field) (f : Field) :
    (overlay under f).children = overlayAll (kept under f) f.children := by
  rw [overlay_eq, children_withChildren]

theorem kept_cases (under : Option Field) (f : Field) : kept under f = [] ∨
      ∃ u, under = some u ∧ f.hasChildren = true ∧ u.hasChildren = true ∧
      kept under f = u.children := by
  cases under with
  | none => exact .inl rfl
  | some u =>
    by_cases h : (f.hasChildren && u.hasChildren) = true
    · right
      refine ⟨u, rfl, ?_, ?_, by simp [kept, h]⟩ <;> simp_all
    · left
      simp [kept, h]

/-- What is found under a name: the upper field, unless it is a removal marker, or the lower one. -/
def layered (under : Option Field) : Option Field → Option Field
  | none => under
  | some f => if f.shape = .removed then none else some (overlay under f)

variable {under upper : NameMap Field}

theorem overlayAll_cons (name : Bytes) (f : Field) : overlayAll under ((name, f) :: upper) =
      overlayAll (if f.shape = .removed then under.erase name
        else under.insert name (overlay (under.get? name) f)) upper := by
  rw [overlayAll]
  cases f.shape <;> rfl

/-- A look-up in layered fields is decided by the two look-ups. -/
theorem get?_overlayAll (hover : upper.Ascending) (name : Bytes) :
    (overlayAll under upper).get? name = layered (under.get? name) (upper.get? name) := by
  induction upper generalizing under with
  | nil => rfl
  | cons e rest ih =>
    obtain ⟨k, f⟩ := e
    rw [ascending_cons] at hover
    rw [overlayAll_cons, ih hover.2, get?_cons]
    by_cases hk : k = name
    · -- The names ascend, so that nothing further on has this name.
      subst hk
      have hrest : get? k rest = none := by
        rw [get?_eq_none_iff]
        intro hmem
        obtain ⟨e, he, heq⟩ := List.mem_map.mp hmem
        exact List.lt_irrefl k (heq ▸ hover.1 e he)
      rw [hrest, if_pos rfl]
      by_cases hf : f.shape = .removed <;> simp [layered, hf, get?_erase]
    · rw [if_neg hk]
      by_cases hf : f.shape = .removed
      · simp [hf, get?_erase, Ne.symm hk]
      · simp [hf, get?_insert_of_ne (Ne.symm hk)]

theorem ascending_overlayAll (hunder : under.Ascending) : (overlayAll under upper).Ascending := by
  induction upper generalizing under with
  | nil => exact hunder
  | cons e rest ih =>
    obtain ⟨k, f⟩ := e
    rw [overlayAll_cons]
    apply ih
    split
    · exact hunder.erase
    · exact hunder.insert

/-! ## Properties of layers -/

theorem forall_mem_overlayAll {R : Bytes × Field → Prop} (hunder : ∀ e ∈ under, R e)
    (hstep : ∀ e ∈ upper, ∀ u : Option Field, (∀ f ∈ u, R (e.1, f)) → e.2.shape ≠ .removed →
      R (e.1, overlay u e.2)) : ∀ e ∈ overlayAll under upper, R e := by
  induction upper generalizing under with
  | nil => exact hunder
  | cons e rest ih =>
    obtain ⟨name, f⟩ := e
    rw [List.forall_mem_cons] at hstep
    rw [overlayAll_cons]
    refine ih (fun e he => ?_) hstep.2
    split at he
    · exact hunder e (List.mem_filter.mp he).1
    · rename_i hshape
      rcases mem_insert he with rfl | he
      · exact hstep.1 _ (fun f hf => hunder _ (mem_of_get? hf)) hshape
      · exact hunder e he

variable {P Q : Field → Prop}

/-- A property of layered fields, by induction on the upper field. The property `Q` of the upper
fields may be weaker than the property `P` of the lower ones and of the result. -/
theorem everywhere_overlay
    (hstep : ∀ under f, Q f → (∀ u ∈ under, P u) → f.shape ≠ .removed → P (overlay under f))
    (hf : f.Everywhere Q) {under : Option Field} (hunder : ∀ u ∈ under, u.Everywhere P)
    (hshape : f.shape ≠ .removed) : (overlay under f).Everywhere P := by
  induction hf generalizing under with
  | @mk f hf _ ih =>
    refine .mk (hstep under f hf (fun u hu => (hunder u hu).here) hshape) ?_
    rw [children_overlay]
    refine forall_mem_overlayAll (R := fun e => e.2.Everywhere P) (fun e he => ?_)
      fun e he u hu hremoved => ih e he hu hremoved
    -- The fields that show through have the property as well.
    rcases kept_cases under f with h | ⟨u, rfl, -, -, h⟩
    · simp [h] at he
    · exact (hunder u rfl).nested e (h ▸ he)

/-- What layering two fields establishes holds at every depth. -/
theorem everywhere_layers
    (hstep : ∀ under f, Q f → (∀ u ∈ under, P u) → f.shape ≠ .removed → P (overlay under f))
    (hlower : ∀ e ∈ under, e.2.Everywhere Q) (hupper : ∀ e ∈ upper, e.2.Everywhere Q) :
    ∀ e ∈ overlayAll (overlayAll [] under) upper, e.2.Everywhere P := by
  have hlayer : ∀ {under upper : NameMap Field}, (∀ e ∈ under, e.2.Everywhere P) →
      (∀ e ∈ upper, e.2.Everywhere Q) → ∀ e ∈ overlayAll under upper, e.2.Everywhere P :=
    fun hlower hupper => forall_mem_overlayAll hlower fun e he _ hu hremoved =>
      everywhere_overlay hstep (hupper e he) hu hremoved
  exact hlayer (hlayer (by simp) hlower) hupper

theorem Regular.table_overlayAll (hunder : (table under).Regular) (hover : (table upper).Regular) :
    (table (overlayAll under upper)).Regular where
  -- No name appears that neither layer has.
  names := forall_mem_overlayAll hunder.names fun e he _ _ _ => hover.names e he
  ascending := ascending_overlayAll hunder.ascending
  leaf := fun h => nomatch h
  struct := fun h => nomatch h

theorem Regular.table_children (h : f.Regular) : (table f.children).Regular where
  names := h.names
  ascending := h.ascending
  leaf := fun h => nomatch h
  struct := fun h => nomatch h

theorem regular_table_nil : (table []).Regular where
  names := by simp
  ascending := ascending_nil
  leaf := fun _ => rfl
  struct := fun h => nomatch h

theorem Regular.overlay {under : Option Field} (hf : f.Regular) (hunder : ∀ u ∈ under, u.Regular) :
    (overlay under f).Regular := by
  have hkept : (table (kept under f)).Regular := by
    rcases kept_cases under f with h | ⟨u, rfl, -, -, h⟩
    · rw [h]
      exact regular_table_nil
    · rw [h]
      exact (hunder u rfl).table_children
  have htable := hkept.table_overlayAll hf.table_children
  rw [overlay_eq]
  refine ⟨⟨htable.names, htable.ascending, fun hleaf => ?_⟩, hf.struct⟩
  -- Without nested fields of its own the field lets none show through.
  have hnone : kept under f = [] := by
    rcases kept_cases under f with h | ⟨u, -, h, -⟩
    · exact h
    · rw [shape_withChildren] at hleaf
      simp [hasChildren, hleaf] at h
  rw [children_withChildren, hnone, hf.leaf hleaf]
  rfl

/-- The names of the nested fields ascend, and the field is no removal marker. -/
def Settled (f : Field) : Prop := f.children.Ascending ∧ f.shape ≠ .removed

theorem settled_nil : (table []).Everywhere Settled := .mk ⟨ascending_nil, by simp⟩ (by simp)

theorem settled_children (h : f.Everywhere Settled) :
    (table f.children).Everywhere Settled := .mk ⟨h.here.1, by simp⟩ h.nested

theorem settled_layers (under upper : NameMap Field) :
    (table (overlayAll (overlayAll [] under) upper)).Everywhere Settled := by
  refine .mk ⟨ascending_overlayAll (ascending_overlayAll ascending_nil), by simp⟩ ?_
  refine everywhere_layers (Q := fun _ => True) (fun under f _ hunder hshape => ⟨?_, ?_⟩)
    (fun e _ => .of_forall (fun _ => trivial) e.2) (fun e _ => .of_forall (fun _ => trivial) e.2)
  · rw [children_overlay]
    apply ascending_overlayAll
    rcases kept_cases under f with h | ⟨u, rfl, -, -, h⟩
    · exact h ▸ ascending_nil
    · exact h ▸ (hunder u rfl).1
  · rwa [shape_overlay]

theorem refers_overlay {tables : List Bytes} {under : Option Field} :
    (overlay under f).Refers tables ↔ f.Refers tables := by
  rw [overlay_eq]
  obtain ⟨shape, note, text, children⟩ := f
  cases shape <;> exact Iff.rfl

theorem Refers.mono {tables tables' : List Bytes} (h : f.Refers tables)
    (hsub : ∀ name ∈ tables, name ∈ tables') : f.Refers tables' := by
  obtain ⟨shape, note, text, children⟩ := f
  cases shape with
  | struct name => exact hsub name h
  | _ => trivial

/-! ## Layers that change nothing -/

/-- Every lower field is still there, and if it and the field of its name both have nested fields,
then so are these. -/
inductive Kept : NameMap Field → NameMap Field → Prop where
  | mk {under upper : NameMap Field} :
      (∀ e ∈ under, e.1 ∈ upper.names) →
      (∀ e ∈ upper, ∀ u ∈ under.get? e.1, u.hasChildren = true → e.2.hasChildren = true →
        Kept u.children e.2.children) →
      Kept under upper

theorem kept_nil : Kept [] upper := .mk (by simp) (by simp)

section Decidable

mutual

def decKept : (f : Field) → (under : NameMap Field) → Decidable (Kept under f.children)
  | .mk _ _ _ children, under =>
    have := decKeptAll children under
    decidable_of_iff ((∀ e ∈ under, e.1 ∈ NameMap.names children) ∧
        ∀ e ∈ children, ∀ u ∈ under.get? e.1, u.hasChildren = true → e.2.hasChildren = true →
          Kept u.children e.2.children)
      ⟨fun h => .mk h.1 h.2, fun | .mk hnames hdeeper => ⟨hnames, hdeeper⟩⟩

/-- Whether several fields keep the nested fields of those of the same names. -/
def decKeptAll : (children : List (Bytes × Field)) → (under : NameMap Field) →
    Decidable (∀ e ∈ children, ∀ u ∈ under.get? e.1, u.hasChildren = true →
      e.2.hasChildren = true → Kept u.children e.2.children)
  | [], _ => isTrue (by simp)
  | (name, f) :: rest, under =>
    have := decKeptAll rest under
    have : Decidable (∀ u ∈ under.get? name, u.hasChildren = true → f.hasChildren = true →
        Kept u.children f.children) :=
      match under.get? name with
      | none => isTrue (by simp)
      | some u =>
        have := decKept f u.children
        decidable_of_iff (u.hasChildren = true → f.hasChildren = true →
          Kept u.children f.children) (by simp)
    decidable_of_iff _ List.forall_mem_cons.symm

end

instance (under upper : NameMap Field) : Decidable (Kept under upper) :=
  decKept (.table upper) under

end Decidable

/-- The argument on one level: the upper fields stay as they are, and no lower one shows through. -/
theorem overlayAll_eq_of_overlay_eq (hunder : under.Ascending) (hover : upper.Ascending)
    (hremoved : ∀ e ∈ upper, e.2.shape ≠ .removed) (hnames : ∀ e ∈ under, e.1 ∈ upper.names)
    (hsame : ∀ name f, upper.get? name = some f → overlay (under.get? name) f = f) :
    overlayAll under upper = upper := by
  apply ext_of_ascending (ascending_overlayAll hunder) hover
  intro name
  rw [get?_overlayAll hover]
  cases hget : upper.get? name with
  | none =>
    -- A lower field of this name would have been kept.
    rw [layered, get?_eq_none_iff]
    intro hname
    obtain ⟨e, he, rfl⟩ := List.mem_map.mp hname
    exact get?_eq_none_iff.mp hget (hnames e he)
  | some f => rw [layered, if_neg (hremoved _ (mem_of_get? hget)), hsame name f hget]

/-- Fields over a map of which they keep everything stay as they are. -/
theorem overlayAll_eq_self (hf : f.Everywhere Settled) {under : NameMap Field}
    (hunder : (table under).Everywhere Settled) (hkept : Kept under f.children) :
    overlayAll under f.children = f.children := by
  induction hf generalizing under with
  | @mk f hf hnested ih =>
    obtain ⟨hnames, hdeeper⟩ := hkept
    have hascending : under.Ascending := hunder.here.1
    apply overlayAll_eq_of_overlay_eq hascending hf.1 (fun e he => (hnested e he).here.2) hnames
    intro name g hget
    have hmem := mem_of_get? hget
    have hlower : (table (kept (under.get? name) g)).Everywhere Settled ∧
        Kept (kept (under.get? name) g) g.children := by
      rcases kept_cases (under.get? name) g with h | ⟨u, hu, hgc, huc, h⟩
      · rw [h]
        exact ⟨settled_nil, kept_nil⟩
      · rw [h]
        refine ⟨settled_children (hunder.nested _ (mem_of_get? hu)), ?_⟩
        exact hdeeper _ hmem u hu huc hgc
    have hsame : overlayAll (kept (under.get? name) g) g.children = g.children :=
      ih _ hmem hlower.1 hlower.2
    rw [overlay_eq, hsame, withChildren_children]

theorem layers_eq_self (hunder : (table under).Everywhere Settled)
    (hover : (table upper).Everywhere Settled) (hkept : Kept under upper) :
    overlayAll (overlayAll [] under) upper = upper := by
  have hfirst : overlayAll [] under = under := overlayAll_eq_self hunder settled_nil kept_nil
  rw [hfirst]
  exact overlayAll_eq_self hover hunder hkept

/-! ## Layers that are put on twice -/

/-- The argument on one level: each upper field changes what it has made of the lower one no
more. -/
theorem overlayAll_overlayAll_of_overlay (hunder : under.Ascending) (hover : upper.Ascending)
    (hsame : ∀ name f, upper.get? name = some f →
      overlay (some (overlay (under.get? name) f)) f = overlay (under.get? name) f) :
    overlayAll (overlayAll under upper) upper = overlayAll under upper := by
  have hascending : (overlayAll under upper).Ascending := ascending_overlayAll hunder
  refine ext_of_ascending (ascending_overlayAll hascending) hascending fun name => ?_
  rw [get?_overlayAll hover, get?_overlayAll hover]
  cases hget : upper.get? name with
  | none => rfl
  | some f => by_cases hf : f.shape = .removed <;> simp [layered, hf, hsame name f hget]

theorem kept_overlay (under : Option Field) (f : Field) :
    kept (some (overlay under f)) f = overlayAll (kept under f) f.children ∨
      kept (some (overlay under f)) f = kept under f := by
  cases hf : f.hasChildren with
  | true =>
    have hnests : f.shape.nests = true := (Bool.and_eq_true_iff.mp hf).1
    have hover : (overlay under f).hasChildren =
        !(overlayAll (kept under f) f.children).isEmpty := by
      rw [hasChildren, shape_overlay, children_overlay, hnests, Bool.true_and]
    left
    rw [kept, hf, hover, children_overlay]
    cases overlayAll (kept under f) f.children <;> rfl
  | false =>
    right
    cases under <;> simp [kept, hf]

theorem overlayAll_overlayAll (hf : f.Everywhere fun g => g.children.Ascending)
    {under : NameMap Field} (hunder : (table under).Everywhere Settled) :
    overlayAll (overlayAll under f.children) f.children = overlayAll under f.children := by
  induction hf generalizing under with
  | @mk f hf _ ih =>
    have hascending : under.Ascending := hunder.here.1
    refine overlayAll_overlayAll_of_overlay hascending hf fun name g hget => ?_
    have hlower : (table (kept (under.get? name) g)).Everywhere Settled := by
      rcases kept_cases (under.get? name) g with h | ⟨u, hu, -, -, h⟩
      · rw [h]
        exact settled_nil
      · rw [h]
        exact settled_children (hunder.nested _ (mem_of_get? hu))
    have hsame : overlayAll (overlayAll (kept (under.get? name) g) g.children) g.children =
        overlayAll (kept (under.get? name) g) g.children := ih _ (mem_of_get? hget) hlower
    rcases kept_overlay (under.get? name) g with h | h
    · rw [overlay_eq (some _), h, hsame, ← overlay_eq]
    · rw [overlay_eq (some _), h, ← overlay_eq]

end Field

/-! ## Layered libraries -/

namespace Library

variable {lib base : Library}

theorem regular_empty : empty.Regular where
  globals := regular_table_nil
  structs := ascending_nil
  bodies := by simp [empty]
  fields := ⟨by simp [empty], by simp [empty]⟩

/-- There is no removal marker in the library. -/
def Clean (lib : Library) : Prop := lib.Everywhere fun f => f.shape ≠ .removed

theorem clean_empty : empty.Clean := ⟨by simp [empty], by simp [empty]⟩

theorem closed_empty : empty.Closed := ⟨by simp [empty], by simp [empty]⟩

theorem Regular.everywhere_structs (h : lib.Regular) (htable : ∀ children, P (.table children))
    (hP : lib.Everywhere P) : ∀ e ∈ lib.structs, e.2.Everywhere fun g => g.Regular ∧ P g := by
  intro e he
  have hbody := h.bodies e he
  have hfield : P e.2 := hbody.2 ▸ htable e.2.children
  refine .mk ⟨hbody.1, hfield⟩ fun c hc => ?_
  exact (h.fields.structs e he c hc).and (hP.structs e he c hc)

theorem Regular.everywhere_extend (h : lib.Regular) (hbase : base.Regular)
    (hstep : ∀ under f, f.Regular ∧ Q f → (∀ u ∈ under, u.Regular ∧ P u) → f.shape ≠ .removed →
      P (overlay under f))
    (htable : ∀ children, Q (.table children)) (hQ : lib.Everywhere Q)
    (hQbase : base.Everywhere Q) : (lib.extend base).Everywhere fun g => g.Regular ∧ P g := by
  have hboth : ∀ under f, f.Regular ∧ Q f → (∀ u ∈ under, u.Regular ∧ P u) → f.shape ≠ .removed →
      (overlay under f).Regular ∧ P (overlay under f) := fun under f hf hu hremoved =>
    ⟨hf.1.overlay fun u h => (hu u h).1, hstep under f hf hu hremoved⟩
  constructor
  case globals =>
    exact everywhere_layers hboth
      (fun e he => (hbase.fields.globals e he).and (hQbase.globals e he))
      (fun e he => (h.fields.globals e he).and (hQ.globals e he))
  case structs =>
    exact fun e he => (everywhere_layers hboth (hbase.everywhere_structs htable hQbase)
      (h.everywhere_structs htable hQ) e he).nested

/-- A regular library over a regular base is regular. -/
theorem Regular.extend (h : lib.Regular) (hbase : base.Regular) : (lib.extend base).Regular := by
  have hfields : (lib.extend base).Everywhere fun g => g.Regular ∧ True :=
    h.everywhere_extend hbase (fun _ _ _ _ _ => trivial) (fun _ => trivial)
      (h.fields.imp fun _ _ => trivial) (hbase.fields.imp fun _ _ => trivial)
  constructor
  case globals =>
    have hbelow := regular_table_nil.table_overlayAll hbase.globals
    exact hbelow.table_overlayAll h.globals
  case structs =>
    exact ascending_overlayAll (ascending_overlayAll ascending_nil)
  case bodies =>
    -- A shared table that is put over another one is again nothing but a table.
    have hlayer : ∀ {under upper : NameMap Field},
        (∀ e ∈ under, e.2.Regular ∧ e.2 = .table e.2.children) →
        (∀ e ∈ upper, e.2.Regular ∧ e.2 = .table e.2.children) →
        ∀ e ∈ overlayAll under upper, e.2.Regular ∧ e.2 = .table e.2.children := by
      intro under upper hunder hupper
      refine forall_mem_overlayAll hunder fun e he u hu _ => ?_
      refine ⟨(hupper e he).1.overlay fun f hf => (hu f hf).1, ?_⟩
      rw [overlay_eq, (hupper e he).2]
      rfl
    exact hlayer (hlayer (by simp) hbase.bodies) h.bodies
  case fields => exact hfields.imp fun _ h => h.1

/-- No removal marker outlasts a composition, not even one that has nothing to remove. -/
theorem clean_extend (lib base : Library) : (lib.extend base).Clean where
  globals := fun e he => ((settled_layers _ _).nested e he).imp fun _ h => h.2
  structs := fun e he c hc => (((settled_layers _ _).nested e he).nested c hc).imp fun _ h => h.2

/-- The shared tables of both libraries are there: no table can be marked as removed. -/
theorem mem_names_extend (h : lib.Regular) (hbase : base.Regular) {name : Bytes}
    (hname : name ∈ lib.structs.names ∨ name ∈ base.structs.names) :
    name ∈ (lib.extend base).structs.names := by
  have hnotRemoved : ∀ {l : Library}, l.Regular → ∀ {f : Field}, l.structs.get? name = some f →
      f.shape ≠ .removed := by
    intro l hl f hf hshape
    have hbody : f = .table f.children := (hl.bodies (name, f) (mem_of_get? hf)).2
    rw [hbody] at hshape
    cases hshape
  apply Classical.byContradiction
  intro hnot
  have hget : (lib.extend base).structs.get? name = none := get?_eq_none_iff.mpr hnot
  have hlayers : (lib.extend base).structs.get? name =
      layered (layered none (base.structs.get? name)) (lib.structs.get? name) := by
    show (overlayAll (overlayAll [] base.structs) lib.structs).get? name = _
    rw [get?_overlayAll h.structs, get?_overlayAll hbase.structs, get?_nil]
  rw [hlayers] at hget
  cases hl : lib.structs.get? name with
  | some f => simp [hl, layered, hnotRemoved h hl] at hget
  | none =>
    cases hb : base.structs.get? name with
    | some f => simp [hl, hb, layered, hnotRemoved hbase hb] at hget
    | none => simp_all [get?_eq_none_iff]

/-- The tables of the base and of the library are enough for both. -/
theorem closed_extend (h : lib.Regular) (hbase : base.Regular)
    (hlib : lib.Everywhere (Refers (lib.extend base).structs.names)) (hclosed : base.Closed) :
    (lib.extend base).Closed := by
  have hlower : base.Everywhere (Refers (lib.extend base).structs.names) := by
    apply hclosed.imp
    intro f hf
    exact hf.mono fun name hname => mem_names_extend h hbase (.inr hname)
  have hfields := h.everywhere_extend hbase (P := Refers (lib.extend base).structs.names)
    (fun under f hf _ _ => refers_overlay.mpr hf.2) (fun _ => trivial) hlib hlower
  exact hfields.imp fun _ h => h.2

theorem Closed.extend (h : lib.Regular) (hbase : base.Regular) (hlib : lib.Closed)
    (hclosed : base.Closed) : (lib.extend base).Closed := by
  apply closed_extend h hbase _ hclosed
  apply hlib.imp
  intro f hf
  exact hf.mono fun name hname => mem_names_extend h hbase (.inl hname)

theorem extend_eq_self (h : lib.Regular) (hclean : lib.Clean) (hbase : base.Regular)
    (hcleanBase : base.Clean) (hglobals : Kept base.globals lib.globals)
    (hstructs : Kept base.structs lib.structs) : lib.extend base = lib := by
  have hglobal : ∀ {l : Library}, l.Regular → l.Clean →
      (table l.globals).Everywhere Settled := fun hl hc =>
    .mk ⟨hl.globals.ascending, by simp⟩ fun e he =>
      ((hl.fields.globals e he).and (hc.globals e he)).imp fun _ h => ⟨h.1.ascending, h.2⟩
  have hstruct : ∀ {l : Library}, l.Regular → l.Clean →
      (table l.structs).Everywhere Settled := fun hl hc =>
    .mk ⟨hl.structs, by simp⟩ fun e he =>
      (hl.everywhere_structs (by simp) hc e he).imp fun _ h => ⟨h.1.ascending, h.2⟩
  rw [Library.extend, layers_eq_self (hglobal hbase hcleanBase) (hglobal h hclean) hglobals,
    layers_eq_self (hstruct hbase hcleanBase) (hstruct h hclean) hstructs]

theorem prune_eq_self (h : lib.Regular) (hclean : lib.Clean) : lib.prune = lib :=
  extend_eq_self h hclean regular_empty clean_empty kept_nil kept_nil

/-- The names ascend in every map of the library. -/
structure Ordered (lib : Library) : Prop where
  globals : (Field.table lib.globals).Everywhere fun f => f.children.Ascending
  structs : (Field.table lib.structs).Everywhere fun f => f.children.Ascending

theorem ordered_extend (lib base : Library) : (lib.extend base).Ordered where
  globals := (settled_layers _ _).imp fun _ h => h.1
  structs := (settled_layers _ _).imp fun _ h => h.1

theorem prune_extend (lib base : Library) : (lib.extend base).prune = lib.extend base := by
  have hmap : ∀ under upper : NameMap Field,
      overlayAll [] (overlayAll (overlayAll [] under) upper) =
        overlayAll (overlayAll [] under) upper := fun under upper =>
    overlayAll_eq_self (settled_layers under upper) settled_nil kept_nil
  simp only [prune, extend, empty, hmap, overlayAll]

theorem extend_extend_of_ordered (h : lib.Ordered) (base : Library) :
    lib.extend (lib.extend base) = lib.extend base := by
  have hmap : ∀ under {upper : NameMap Field},
      (table upper).Everywhere (fun f => f.children.Ascending) →
      overlayAll (overlayAll (overlayAll [] under) upper) upper =
        overlayAll (overlayAll [] under) upper := fun under _ hupper =>
    overlayAll_overlayAll hupper (settled_layers [] under)
  have hpruned := prune_extend lib base
  simp only [prune, extend, empty, overlayAll, Library.mk.injEq, true_and] at hpruned
  simp only [extend, hpruned, hmap _ h.globals, hmap _ h.structs]

/-- Putting a library over its own result changes nothing, whatever the base is. So a library
without removal markers is unchanged by itself, and pruning twice is the same as pruning once. -/
theorem extend_extend (h : lib.Ordered) (base : Library) :
    lib.extend (lib.extend base) = lib.extend base ∧
      lib.prune.extend lib.prune = lib.prune ∧ lib.prune.prune = lib.prune := by
  have hpruned : lib.prune.prune = lib.prune := prune_extend lib empty
  refine ⟨extend_extend_of_ordered h base, ?_, hpruned⟩
  have hself := extend_extend_of_ordered (ordered_extend lib empty) empty
  have hpruned : (lib.extend empty).extend empty = lib.extend empty := hpruned
  rw [hpruned] at hself
  exact hself

/-- Removal markers, a wildcard, a function with nested fields and an empty table. -/
def overlaid : Library where
  name := "upper"
  base := "lower"
  globals := [("*", .ofShape .any), ("a", .ofShape .removed),
    ("f", .mk (.function default) none [] [("m", .ofShape .removed), ("n", .table [])]),
    ("t", .table [])]
  structs := [("s", .table [("x", .ofShape .removed), ("y", .ofShape .any)])]

/-- A base with a field for each of them. -/
def underlaid : Library where
  name := "lower"
  base := []
  globals := [("f", .mk (.function default) none [] [("k", .ofShape .any), ("m", .ofShape .any)]),
    ("a", .table [("b", .ofShape .any)]), ("t", .table [("u", .ofShape .any)])]
  structs := [("s", .table [("x", .ofShape .any), ("z", .ofShape .removed)])]

theorem extend_extend_markers : overlaid.Ordered ∧
    overlaid.extend (overlaid.extend underlaid) = overlaid.extend underlaid ∧
    overlaid.prune.extend overlaid.prune = overlaid.prune ∧
    (overlaid.extend underlaid).globals.names = ["*", "f", "t"].map Bytes.ofString := by
  have h : overlaid.Ordered := ⟨by decide, by decide⟩
  have htwice := extend_extend h underlaid
  exact ⟨h, htwice.1, htwice.2.1, by decide⟩

end Library

end LuaLint
