import LuaLint.Library.Basic
import LuaLint.Proofs.Text.Names

/-!
# Regular libraries

What can be said of the trees of fields that make up a library. Some of it holds of every library
that is decoded from a document, such as that names are free of dots; some of it is needed to write
the library down again, such as that every table has something in it.
-/

namespace LuaLint

def IsSegment (name : Bytes) : Prop := name ≠ [] ∧ Bytes.byte '.' ∉ name

instance (name : Bytes) : Decidable (IsSegment name) := inferInstanceAs (Decidable (_ ∧ _))

namespace Field

@[simp] theorem children_mk {shape : FieldShape} {note : Option Deprecation} {text : Bytes}
    {children : List (Bytes × Field)} : (Field.mk shape note text children).children =
    children := rfl

@[simp] theorem shape_withChildren (f : Field) (children : NameMap Field) :
    (f.withChildren children).shape = f.shape := rfl

@[simp] theorem children_withChildren (f : Field) (children : NameMap Field) :
    (f.withChildren children).children = children := rfl

@[simp] theorem withChildren_withChildren (f : Field) (children others : NameMap Field) :
    (f.withChildren children).withChildren others = f.withChildren others := rfl

@[simp] theorem withChildren_children (f : Field) : f.withChildren f.children = f := by
  cases f
  rfl

@[simp] theorem shape_table (children : NameMap Field) : (Field.table children).shape =
    .table := rfl

@[simp] theorem children_table (children : NameMap Field) :
    (Field.table children).children = children := rfl

@[simp] theorem withChildren_table (children others : NameMap Field) :
    (Field.table children).withChildren others = .table others := rfl

theorem eq_table_iff {f : Field} :
    f = .table f.children ↔ f.shape = .table ∧ f.deprecated = none ∧ f.description = [] := by
  cases f
  simp [table, shape, deprecated, description]

/-- The property holds of a field and of all fields below it. -/
inductive Everywhere (P : Field → Prop) : Field → Prop where
  | mk {f : Field} : P f → (∀ e ∈ f.children, Everywhere P e.2) → Everywhere P f

namespace Everywhere

variable {P Q : Field → Prop} {f : Field}

theorem here (h : Everywhere P f) : P f := by
  cases h with
  | mk hf _ => exact hf

theorem nested (h : Everywhere P f) : ∀ e ∈ f.children, Everywhere P e.2 := by
  cases h with
  | mk _ hchildren => exact hchildren

theorem imp (h : Everywhere P f) (hPQ : ∀ g, P g → Q g) : Everywhere Q f := by
  induction h with
  | mk hf _ ih => exact .mk (hPQ _ hf) ih

theorem and (hP : Everywhere P f) (hQ : Everywhere Q f) : Everywhere (fun g => P g ∧ Q g) f := by
  induction hP with
  | mk hf _ ih => exact .mk ⟨hf, hQ.here⟩ fun e he => ih e he (hQ.nested e he)

mutual

theorem of_forall (h : ∀ g, P g) : (f : Field) → Everywhere P f
  | .mk _ _ _ children => .mk (h _) (of_forall_children h children)

theorem of_forall_children (h : ∀ g, P g) :
    (children : List (Bytes × Field)) → ∀ e ∈ children, Everywhere P e.2
  | [] => by simp
  | (_, f) :: rest => List.forall_mem_cons.mpr ⟨of_forall h f, of_forall_children h rest⟩

end

end Everywhere

section Decidable

variable (P : Field → Prop) [DecidablePred P]

mutual

def decEverywhere : (f : Field) → Decidable (f.Everywhere P)
  | .mk shape note text children =>
    have : Decidable (∀ e ∈ children, e.2.Everywhere P) := decEverywhereAll children
    decidable_of_iff (P (.mk shape note text children) ∧ ∀ e ∈ children, e.2.Everywhere P)
      ⟨fun h => .mk h.1 h.2, fun h => ⟨h.here, h.nested⟩⟩

def decEverywhereAll : (children : List (Bytes × Field)) →
    Decidable (∀ e ∈ children, e.2.Everywhere P)
  | [] => isTrue (by simp)
  | (_, f) :: rest =>
    match decEverywhere f, decEverywhereAll rest with
    | isTrue h, isTrue hrest => isTrue (List.forall_mem_cons.mpr ⟨h, hrest⟩)
    | isFalse h, _ => isFalse fun hall => h (List.forall_mem_cons.mp hall).1
    | _, isFalse hrest => isFalse fun hall => hrest (List.forall_mem_cons.mp hall).2

end

instance (f : Field) : Decidable (f.Everywhere P) := decEverywhere P f

end Decidable

/-- The names of the nested fields are segments in ascending order, and only a table or a function
has nested fields. -/
structure Arranged (f : Field) : Prop where
  names : ∀ e ∈ f.children, IsSegment e.1
  ascending : f.children.Ascending
  leaf : f.shape.nests = false → f.children = []

instance (f : Field) : Decidable f.Arranged :=
  decidable_of_iff ((∀ e ∈ f.children, IsSegment e.1) ∧ f.children.Ascending ∧
      (f.shape.nests = false → f.children = []))
    ⟨fun ⟨h₁, h₂, h₃⟩ => ⟨h₁, h₂, h₃⟩, fun ⟨h₁, h₂, h₃⟩ => ⟨h₁, h₂, h₃⟩⟩

/-- If the field stands for a shared table, it names one. -/
def Named (f : Field) : Prop := f.shape ≠ .struct []

instance (f : Field) : Decidable f.Named := inferInstanceAs (Decidable (_ ≠ _))

/-- What holds of every field that is decoded. -/
structure Regular (f : Field) : Prop extends Arranged f where
  struct : f.Named

instance (f : Field) : Decidable f.Regular :=
  decidable_of_iff (f.Arranged ∧ f.Named) ⟨fun h => ⟨h.1, h.2⟩, fun h => ⟨h.toArranged, h.struct⟩⟩

/-- There is something to write down: a table of which nothing else is known holds a field, and a
deprecation says why. -/
structure Spelled (f : Field) : Prop where
  table : f.shape = .table → f.deprecated = none → f.description = [] → f.children ≠ []
  message : ∀ note ∈ f.deprecated, note.message ≠ []

instance (f : Field) : Decidable f.Spelled :=
  decidable_of_iff ((f.shape = .table → f.deprecated = none → f.description = [] →
      f.children ≠ []) ∧ ∀ note ∈ f.deprecated, note.message ≠ [])
    ⟨fun ⟨h₁, h₂⟩ => ⟨h₁, h₂⟩, fun ⟨h₁, h₂⟩ => ⟨h₁, h₂⟩⟩

/-- If the field stands for a shared table, that table is among those with the given names. -/
def Refers (tables : List Bytes) : Field → Prop
  | .mk (.struct name) _ _ _ => name ∈ tables
  | _ => True

instance (tables : List Bytes) : (f : Field) → Decidable (f.Refers tables)
  | .mk (.struct name) _ _ _ => inferInstanceAs (Decidable (name ∈ tables))
  | .mk .table _ _ _ | .mk .any _ _ _ | .mk .removed _ _ _ => isTrue trivial
  | .mk (.function _) _ _ _ | .mk (.property _) _ _ _ => isTrue trivial

end Field

namespace Library

/-- The property holds of all global fields, of the fields of the shared tables and of the fields
below them. -/
structure Everywhere (P : Field → Prop) (lib : Library) : Prop where
  globals : ∀ e ∈ lib.globals, e.2.Everywhere P
  structs : ∀ e ∈ lib.structs, ∀ c ∈ e.2.children, c.2.Everywhere P

instance (P : Field → Prop) [DecidablePred P] (lib : Library) : Decidable (lib.Everywhere P) :=
  decidable_of_iff ((∀ e ∈ lib.globals, e.2.Everywhere P) ∧
      ∀ e ∈ lib.structs, ∀ c ∈ e.2.children, c.2.Everywhere P)
    ⟨fun ⟨h₁, h₂⟩ => ⟨h₁, h₂⟩, fun ⟨h₁, h₂⟩ => ⟨h₁, h₂⟩⟩

theorem Everywhere.imp {P Q : Field → Prop} {lib : Library} (h : lib.Everywhere P)
    (hPQ : ∀ f, P f → Q f) : lib.Everywhere Q where
  globals := fun e he => (h.globals e he).imp hPQ
  structs := fun e he c hc => (h.structs e he c hc).imp hPQ

/-- The property holds of the table of all global fields, of the shared tables and of all fields.
The shared tables are in ascending order, and they are nothing but tables. -/
structure Composed (P : Field → Prop) (lib : Library) : Prop where
  globals : P (Field.table lib.globals)
  structs : lib.structs.Ascending
  bodies : ∀ e ∈ lib.structs, P e.2 ∧ e.2 = .table e.2.children
  fields : lib.Everywhere P

instance (P : Field → Prop) [DecidablePred P] (lib : Library) : Decidable (lib.Composed P) :=
  decidable_of_iff (P (Field.table lib.globals) ∧ lib.structs.Ascending ∧
      (∀ e ∈ lib.structs, P e.2 ∧ e.2.shape = .table ∧ e.2.deprecated = none ∧
        e.2.description = []) ∧ lib.Everywhere P)
    ⟨fun ⟨h₁, h₂, h₃, h₄⟩ => ⟨h₁, h₂, fun e he => (h₃ e he).imp_right Field.eq_table_iff.mpr, h₄⟩,
      fun ⟨h₁, h₂, h₃, h₄⟩ => ⟨h₁, h₂, fun e he => (h₃ e he).imp_right Field.eq_table_iff.mp, h₄⟩⟩

/-- The library is regular at every level. -/
abbrev Regular (lib : Library) : Prop := lib.Composed Field.Regular

/-- Every shared table that a field stands for is one of the library. -/
def Closed (lib : Library) : Prop := lib.Everywhere (Field.Refers lib.structs.names)

instance (lib : Library) : Decidable lib.Closed :=
  inferInstanceAs (Decidable (lib.Everywhere (Field.Refers lib.structs.names)))

/-- A library that can be written down: it is in order at every level, there is something to write
for every field, and without a base it has the shared tables that it needs. -/
structure WellFormed (lib : Library) : Prop extends Composed Field.Arranged lib where
  spelled : lib.Everywhere Field.Spelled
  closed : lib.base = [] → lib.Closed

instance (lib : Library) : Decidable lib.WellFormed :=
  decidable_of_iff (lib.Composed Field.Arranged ∧ lib.Everywhere Field.Spelled ∧
      (lib.base = [] → lib.Closed))
    ⟨fun ⟨h₁, h₂, h₃⟩ => ⟨h₁, h₂, h₃⟩, fun h => ⟨h.toComposed, h.spelled, h.closed⟩⟩

/-- Every shared table that a field stands for has a name. -/
def Named (lib : Library) : Prop := lib.Everywhere Field.Named

instance (lib : Library) : Decidable lib.Named :=
  inferInstanceAs (Decidable (lib.Everywhere Field.Named))

/-- For a well-formed library this is all that is missing. -/
theorem WellFormed.regular {lib : Library} (h : lib.WellFormed) (hnamed : lib.Named) :
    lib.Regular where
  globals := ⟨h.globals, by simp [Field.Named]⟩
  structs := h.structs
  bodies := by
    intro e he
    obtain ⟨harranged, htable⟩ := h.bodies e he
    refine ⟨⟨harranged, ?_⟩, htable⟩
    rw [Field.Named, htable]
    simp
  fields := by
    refine ⟨fun e he => ?_, fun e he c hc => ?_⟩
    · exact ((h.fields.globals e he).and (hnamed.globals e he)).imp fun _ hf => ⟨hf.1, hf.2⟩
    · exact ((h.fields.structs e he c hc).and (hnamed.structs e he c hc)).imp
        fun _ hf => ⟨hf.1, hf.2⟩

end Library

end LuaLint
