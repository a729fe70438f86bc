import LuaLint.Library.Loader
import LuaLint.Proofs.Library.Overlay
import LuaLint.Proofs.Text.Results

/-!
# Decoded libraries are regular

Whatever a document says, the library that it describes is regular: names are segments in ascending
order, fields without nested fields have none, and shared tables are tables. A library without a
base has all the shared tables that it needs. The proofs follow the decoder, with the invariant that
the fields collected so far make a regular table.

Main statements: `Decoder.everywhere_regular_field`, `Library.checkStructs_eq_ok_iff`,
`Library.regular_of_parseDocument`.
-/

namespace LuaLint

open NameMap

variable {lib' : Library} {d : Decoder} {key : Bytes} {k v : Yaml.Node}

/-! ## Fields in place -/

namespace Field

variable {m : NameMap Field} {name : Bytes} {f : Field}

/-- A regular table whose fields are regular. -/
abbrev Sorted (m : NameMap Field) : Prop := (table m).Everywhere Regular

theorem sorted_nil : Sorted [] :=
  .mk regular_table_nil (by simp)

theorem Sorted.insert (h : Sorted m) (hname : IsSegment name) (hf : f.Everywhere Regular) :
    Sorted (m.insert name f) := by
  have hmem : ∀ e ∈ m.insert name f, IsSegment e.1 ∧ e.2.Everywhere Regular := by
    intro e he
    rcases mem_insert he with rfl | he
    · exact ⟨hname, hf⟩
    · exact ⟨h.here.names e he, h.nested e he⟩
  refine .mk ⟨⟨fun e he => (hmem e he).1, ?_, (fun h => nomatch h)⟩, (fun h => nomatch h)⟩
    fun e he => (hmem e he).2
  exact Ascending.insert h.here.ascending

theorem Sorted.insertAll {m' : NameMap Field} (h : Sorted m) (h' : Sorted m') :
    Sorted (m.insertAll m') := by
  have hmem : ∀ e ∈ m', IsSegment e.1 ∧ e.2.Everywhere Regular := fun e he =>
    ⟨h'.here.names e he, h'.nested e he⟩
  clear h'
  unfold NameMap.insertAll
  induction m' generalizing m with
  | nil => exact h
  | cons e rest ih =>
    rw [List.forall_mem_cons] at hmem
    exact ih (h.insert hmem.1.1 hmem.1.2) hmem.2

theorem sorted_children (h : f.Everywhere Regular) : Sorted f.children :=
  .mk h.here.table_children h.nested

theorem Sorted.withChildren (h : Sorted m) (hf : f.Regular) (hnests : f.shape.nests = true) :
    (f.withChildren m).Everywhere Regular := by
  refine .mk ⟨⟨h.here.names, h.here.ascending, fun hleaf => ?_⟩, hf.struct⟩ h.nested
  rw [shape_withChildren, hnests] at hleaf
  cases hleaf

end Field

namespace Decoder

open LuaLint.Field

variable {d : Decoder} {key n : Yaml.Node} {text : Bytes} {m m' : NameMap Field} {f g : Field}

/-- What putting a field at a path does to the field of the first name: it is put there, or takes
the place of a plain table, or what is nested in it changes. -/
theorem inflate_cons {passed rest : List Bytes} {name : Bytes}
    (h : d.inflate key text f passed (name :: rest) m = .ok m') :
    name ≠ [] ∧ ∃ g, m' = m.insert name g ∧
      (rest = [] ∧ m.get? name = none ∧ g = f ∨
        (∃ old, rest = [] ∧ m.get? name = some (.table old) ∧ f.shape.nests = true ∧
          g = f.withChildren (old.insertAll f.children)) ∨
        ∃ parent children, (m.get? name).getD (.table []) = parent ∧ parent.shape.nests = true ∧
          rest ≠ [] ∧ d.inflate key text f (passed ++ [name]) rest parent.children = .ok children ∧
          g = parent.withChildren children) := by
  cases rest with
  | nil =>
    simp only [inflate] at h
    split at h
    · cases h
    rename_i hne
    refine ⟨by simpa using hne, ?_⟩
    split at h
    · rename_i hget
      cases h
      exact ⟨f, rfl, .inl ⟨rfl, hget, rfl⟩⟩
    · rename_i existing hget
      obtain ⟨merged, hmerged, rfl⟩ := map_eq_ok_iff.mp h
      -- A field that is there already must be a plain table, which is merged into the new one.
      unfold redeclare at hmerged
      split at hmerged
      · cases hmerged
      split at hmerged
      · cases hmerged
      rename_i hplain hnests
      cases hmerged
      have htable : existing = .table existing.children := by
        rw [eq_table_iff]
        simpa [and_assoc, and_comm, and_left_comm] using hplain
      exact ⟨_, rfl, .inr (.inl ⟨_, rfl, htable ▸ hget, by simpa using hnests, rfl⟩)⟩
  | cons next rest =>
    simp only [inflate] at h
    split at h
    · cases h
    rename_i hne
    split at h
    · cases h
    rename_i hnests
    -- On the way down, a table is made where nothing is yet.
    obtain ⟨children, hchildren, rfl⟩ := map_eq_ok_iff.mp h
    exact ⟨by simpa using hne, _, rfl,
      .inr (.inr ⟨_, children, rfl, by simpa using hnests, by simp, hchildren, rfl⟩)⟩

theorem sorted_inflate (hf : f.Everywhere Regular) {passed path : List Bytes}
    (hpath : ∀ name ∈ path, Bytes.byte '.' ∉ name) (hm : Sorted m)
    (h : d.inflate key text f passed path m = .ok m') : Sorted m' := by
  induction path generalizing passed m m' with
  | nil =>
    cases h
    exact hm
  | cons name rest ih =>
    rw [List.forall_mem_cons] at hpath
    obtain ⟨hne, g, rfl, hg⟩ := inflate_cons h
    refine hm.insert ⟨hne, hpath.1⟩ ?_
    rcases hg with ⟨-, -, rfl⟩ | ⟨old, -, hget, hnests, rfl⟩ |
      ⟨parent, children, hparent, hnests, -, hc, rfl⟩
    · exact hf
    · have hold := sorted_children (hm.nested _ (mem_of_get? hget))
      exact (hold.insertAll (sorted_children hf)).withChildren hf.here hnests
    · -- The table on the way is there already or is made.
      have hregular : parent.Everywhere Regular := by
        rw [← hparent]
        cases hget : m.get? name with
        | none => exact sorted_nil
        | some existing => exact hm.nested _ (mem_of_get? hget)
      exact (ih hpath.2 (sorted_children hregular) hc).withChildren hregular.here hnests

theorem sorted_place (hf : f.Everywhere Regular) (hm : Sorted m)
    (h : d.place key text f m = .ok m') : Sorted m' :=
  sorted_inflate hf (fun _ hname => Bytes.notMem_of_mem_split hname) hm h

/-! ## Fields -/

theorem sorted_nested {decode : Yaml.Node → Result Field}
    (hdecode : ∀ v f, decode v = .ok f → f.Everywhere Regular)
    {entries : List (Bytes × Yaml.Node × Yaml.Node)} (hm : Sorted m)
    (h : d.nested decode entries m = .ok m') : Sorted m' := by
  induction entries generalizing m with
  | nil =>
    cases h
    exact hm
  | cons e rest ih =>
    obtain ⟨text, k, v⟩ := e
    obtain ⟨f, hf, h⟩ := bind_eq_ok_iff.mp h
    obtain ⟨m₁, hm₁, h⟩ := bind_eq_ok_iff.mp h
    exact ih (sorted_place (hdecode v f hf) hm hm₁) h

theorem checkedShape_cases {draft : FieldDraft} {shape : FieldShape}
    (h : d.checkedShape n draft = .ok shape) :
    d.shapeOf n draft = .ok shape ∧ (shape.nests = false → draft.children = []) ∧
      shape ≠ .struct [] := by
  obtain ⟨shape', hshape, h⟩ := bind_eq_ok_iff.mp h
  have hsame := hshape
  -- The name of a struct is not empty where one is given.
  have hstruct : shape' ≠ .struct [] := by
    rintro rfl
    simp only [shapeOf] at hshape
    split at hshape
    · cases hshape
    split at hshape
    · cases hshape
    split at hshape
    · cases hshape
    split at hshape
    · rename_i hne
      simp [FieldShape.struct.inj (Except.ok.inj hshape)] at hne
    split at hshape
    · cases hshape
    split at hshape <;> cases hshape
  split at h
  · cases h
    exact ⟨hsame, (fun hnests => nomatch hnests), hstruct⟩
  · cases h
  · split at h
    · cases h
    · rename_i hlast
      cases h
      refine ⟨hsame, fun hnests => ?_, hstruct⟩
      apply List.getLast?_eq_none_iff.mp
      cases hget : draft.children.getLast? with
      | none => rfl
      | some entry => exact absurd hget (hlast entry.1 entry.2.1 entry.2.2 hnests)

/-- Each decoded field is regular, by induction on the depth. -/
theorem everywhere_regular_field {fuel : Nat} (h : d.field fuel n = .ok f) :
    f.Everywhere Regular := by
  induction fuel generalizing n f with
  | zero => cases h
  | succ fuel ih =>
    obtain ⟨draft, -, h⟩ := bind_eq_ok_iff.mp h
    split at h
    · cases h
      exact .mk ⟨⟨by simp, ascending_nil, fun _ => rfl⟩, fun h => nomatch h⟩ (by simp)
    split at h
    · cases h
      exact .mk ⟨⟨by simp, ascending_nil, fun _ => rfl⟩, fun h => nomatch h⟩ (by simp)
    obtain ⟨shape, hshape, h⟩ := bind_eq_ok_iff.mp h
    obtain ⟨children, hchildren, rfl⟩ := map_eq_ok_iff.mp h
    obtain ⟨-, hleaf, hstruct⟩ := checkedShape_cases hshape
    have hsorted := sorted_nested (fun v f => ih) sorted_nil hchildren
    refine .mk ⟨⟨hsorted.here.names, hsorted.here.ascending, fun hnests => ?_⟩, hstruct⟩
      hsorted.nested
    rw [hleaf hnests] at hchildren
    cases hchildren
    rfl

/-! ## Documents -/

section Pairs

variable {σ : Type} {what : Bytes} {P : σ → Prop}
variable {step : σ → Bytes → Yaml.Node → Yaml.Node → Result σ}

theorem foldPairs_invariant {entries : List (Yaml.Node × Yaml.Node)}
    (hstep : ∀ acc acc' key, ∀ e ∈ entries,
      P acc → step acc key e.1 (d.document.resolve e.2) = .ok acc' → P acc')
    {acc acc' : σ} (hacc : P acc) (h : d.foldPairs what step entries acc = .ok acc') : P acc' := by
  induction entries generalizing acc with
  | nil =>
    cases h
    exact hacc
  | cons e rest ih =>
    obtain ⟨k, v⟩ := e
    cases k with
    | scalar line tag key =>
      obtain ⟨acc₁, hacc₁, h⟩ := bind_eq_ok_iff.mp h
      refine ih (fun _ _ _ e he => hstep _ _ _ e (List.mem_cons_of_mem _ he)) ?_ h
      exact hstep _ _ _ _ List.mem_cons_self hacc hacc₁
    | _ => cases h

theorem pairs_invariant (hstep : ∀ acc acc' key k v, P acc → step acc key k v = .ok acc' → P acc')
    {acc acc' : σ} (hacc : P acc) (h : d.pairs n what acc step = .ok acc') : P acc' := by
  unfold pairs at h
  split at h
  · exact foldPairs_invariant (fun _ _ _ _ _ => hstep _ _ _ _ _) hacc h
  · cases h

end Pairs

theorem sorted_fields {what : Bytes} (hm : Sorted m) (h : d.fields n what m = .ok m') :
    Sorted m' := by
  refine pairs_invariant (fun acc acc' key k v hacc hstep => ?_) hm h
  obtain ⟨f, hf, hplace⟩ := bind_eq_ok_iff.mp hstep
  exact sorted_place (everywhere_regular_field hf) hacc hplace

abbrev libraryKey (d : Decoder) := d.libraryKeyBy (d.field (d.document.size + 1))

def Tables (structs : NameMap Field) : Prop :=
  structs.Ascending ∧ ∀ e ∈ structs, ∃ children, e.2 = .table children ∧ Sorted children

theorem tables_structs (hm : Tables m) (h : d.structs n m = .ok m') : Tables m' := by
  refine pairs_invariant (fun acc acc' key k v hacc hstep => ?_) hm h
  obtain ⟨children, hchildren, rfl⟩ := map_eq_ok_iff.mp hstep
  refine ⟨hacc.1.insert, fun e he => ?_⟩
  rcases mem_insert he with rfl | he
  · exact ⟨children, rfl, sorted_fields sorted_nil hchildren⟩
  · exact hacc.2 e he

end Decoder

/-! ## Shared tables -/

mutual

theorem Field.danglingStruct?_eq_none_iff {known : List Bytes} (path : Bytes) :
    ∀ {f : Field}, f.danglingStruct? known path = none ↔ f.Everywhere (Field.Refers known)
  | .mk shape note text children => by
    have hchildren : danglingStructIn? known path children = none ↔
        ∀ e ∈ children, e.2.Everywhere (Field.Refers known) := danglingStructIn?_eq_none_iff path
    have hsplit : (Field.mk shape note text children).Everywhere (Field.Refers known) ↔
        (Field.mk shape note text children).Refers known ∧
          ∀ e ∈ children, e.2.Everywhere (Field.Refers known) :=
      ⟨fun h => ⟨h.here, h.nested⟩, fun h => .mk h.1 h.2⟩
    rw [hsplit, ← hchildren]
    cases shape with
    | struct name =>
      by_cases hknown : name ∈ known <;> simp [Field.danglingStruct?, Field.Refers, hknown]
    | _ => simp [Field.danglingStruct?, Field.Refers]

theorem danglingStructIn?_eq_none_iff {known : List Bytes} (path : Bytes) :
    ∀ {children : List (Bytes × Field)}, danglingStructIn? known path children = none ↔
      ∀ e ∈ children, e.2.Everywhere (Field.Refers known)
  | [] => by simp [danglingStructIn?]
  | (name, f) :: rest => by
    rw [List.forall_mem_cons, ← danglingStructIn?_eq_none_iff path,
      ← Field.danglingStruct?_eq_none_iff (if path.isEmpty then name else path ++ "." ++ name),
      danglingStructIn?]
    split <;> simp_all

end

namespace Library

open Decoder LuaLint.Field

variable {lib : Library} {name text : Bytes}

/-- The check of shared tables succeeds just when none is missing. -/
theorem checkStructs_eq_ok_iff (document : Bytes) :
    lib.checkStructs document = .ok () ↔ lib.Closed := by
  have hsplit : lib.Closed ↔ (∀ e ∈ lib.globals, e.2.Everywhere (Refers lib.structs.names)) ∧
      ∀ e ∈ lib.structs, ∀ c ∈ e.2.children, c.2.Everywhere (Refers lib.structs.names) :=
    ⟨fun h => ⟨h.globals, h.structs⟩, fun h => ⟨h.1, h.2⟩⟩
  have hstructs : (lib.structs.findSome? fun entry =>
        danglingStructIn? lib.structs.names entry.1 entry.2.children) = none ↔
      ∀ e ∈ lib.structs, ∀ c ∈ e.2.children, c.2.Everywhere (Refers lib.structs.names) := by
    rw [List.findSome?_eq_none_iff]
    exact forall₂_congr fun e _ => danglingStructIn?_eq_none_iff e.1
  rw [hsplit, ← hstructs, ← danglingStructIn?_eq_none_iff [], ← Option.or_eq_none_iff]
  simp only [checkStructs]
  generalize Option.or _ _ = found
  cases found <;> simp

theorem closed_eq_ok_iff {document : Bytes} :
    lib.closed document = .ok lib' ↔ lib' = lib ∧ (lib.base = [] → lib.Closed) := by
  unfold Library.closed
  split
  · rename_i hbase
    have hbase : lib.base = [] := by simpa using hbase
    rw [map_eq_ok_iff]
    constructor
    · rintro ⟨_, hcheck, rfl⟩
      exact ⟨rfl, fun _ => (checkStructs_eq_ok_iff document).mp hcheck⟩
    · rintro ⟨rfl, hclosed⟩
      exact ⟨(), (checkStructs_eq_ok_iff document).mpr (hclosed hbase), rfl⟩
  · rename_i hbase
    have hbase : lib.base ≠ [] := by simpa using hbase
    simp [hbase, eq_comm]

/-! ## Libraries -/

/-- The fields and the shared tables that have been collected are regular. -/
structure Collected (lib : Library) : Prop where
  globals : Sorted lib.globals
  structs : Tables lib.structs

theorem collected_empty : Collected .empty := ⟨sorted_nil, ascending_nil, by simp [empty]⟩

theorem Collected.regular (h : lib.Collected) : lib.Regular where
  globals := h.globals.here
  structs := h.structs.1
  bodies := by
    intro e he
    obtain ⟨children, heq, hsorted⟩ := h.structs.2 e he
    rw [heq]
    exact ⟨hsorted.here, rfl⟩
  fields := by
    refine ⟨h.globals.nested, fun e he c hc => ?_⟩
    obtain ⟨children, heq, hsorted⟩ := h.structs.2 e he
    rw [heq] at hc
    exact hsorted.nested c hc

theorem libraryKey_cases (h : d.libraryKey lib key k v = .ok lib') :
    (∃ base name, (base = lib.base ∨ d.scalar v = .ok base) ∧
      lib' = { lib with base := base, name := name } ∧ key ≠ "globals" ∧ key ≠ "structs") ∨
    (∃ fields, key = "globals" ∧ d.fields v "globals" lib.globals = .ok fields ∧
      lib' = { lib with globals := fields }) ∨
    ∃ tables, key = "structs" ∧ d.structs v lib.structs = .ok tables ∧
      lib' = { lib with structs := tables } := by
  unfold Decoder.libraryKey Decoder.libraryKeyBy at h
  split at h
  · rename_i hkey
    obtain ⟨base, hbase, rfl⟩ := map_eq_ok_iff.mp h
    rw [eq_of_beq hkey]
    exact .inl ⟨base, lib.name, .inr hbase, rfl, by decide, by decide⟩
  split at h
  · rename_i hkey
    obtain ⟨own, -, rfl⟩ := map_eq_ok_iff.mp h
    rw [eq_of_beq hkey]
    exact .inl ⟨lib.base, own, .inl rfl, rfl, by decide, by decide⟩
  split at h
  · rename_i hkey
    obtain ⟨fields, hfields, rfl⟩ := map_eq_ok_iff.mp h
    exact .inr (.inl ⟨fields, eq_of_beq hkey, hfields, rfl⟩)
  split at h
  · rename_i hkey
    obtain ⟨tables, htables, rfl⟩ := map_eq_ok_iff.mp h
    exact .inr (.inr ⟨tables, eq_of_beq hkey, htables, rfl⟩)
  · cases h

theorem Collected.libraryKey (hlib : lib.Collected) (h : d.libraryKey lib key k v = .ok lib') :
    lib'.Collected := by
  rcases libraryKey_cases h with
    ⟨_, _, -, rfl, -⟩ | ⟨fields, -, hfields, rfl⟩ | ⟨tables, -, htables, rfl⟩
  · exact ⟨hlib.globals, hlib.structs⟩
  · exact ⟨sorted_fields hlib.globals hfields, hlib.structs⟩
  · exact ⟨hlib.globals, tables_structs hlib.structs htables⟩

theorem regular_of_library (h : d.library = .ok lib) :
    lib.Regular ∧ (lib.base = [] → lib.Closed) := by
  obtain ⟨collected, hcollected, hclosed⟩ := bind_eq_ok_iff.mp h
  obtain ⟨rfl, hclosed⟩ := closed_eq_ok_iff.mp hclosed
  have hinvariant : Collected lib :=
    pairs_invariant (fun _ _ _ _ _ hacc hstep => hacc.libraryKey hstep) collected_empty hcollected
  exact ⟨hinvariant.regular, hclosed⟩

theorem regular_of_parse (h : parse name text = .ok lib) :
    lib.Regular ∧ (lib.base = [] → lib.Closed) := by
  unfold parse at h
  split at h
  · cases h
  · cases h
  · exact regular_of_library h

theorem collected_ofMeta {v : ConfigValue} (h : ofMeta name v = .ok lib) : lib.Collected := by
  unfold ofMeta at h
  split at h
  · obtain ⟨base, -, h⟩ := bind_eq_ok_iff.mp h
    obtain ⟨own, -, h⟩ := bind_eq_ok_iff.mp h
    split at h
    · cases h
      exact ⟨sorted_nil, collected_empty.structs⟩
    · obtain ⟨n, -, h⟩ := bind_eq_ok_iff.mp h
      obtain ⟨tables, htables, h⟩ := bind_eq_ok_iff.mp h
      cases h
      exact ⟨sorted_nil, tables_structs collected_empty.structs htables⟩
  · cases h

theorem parseOlder_cases (h : parseOlder name text = .ok lib) :
    ∃ table about n globals, Toml.read text = some table ∧
      ((∃ v, table.get? metaKey = some v ∧ ofMeta name v = .ok about) ∨ about = .empty) ∧
      (Decoder.mk name (.ofNode n)).fields n "globals" [] = .ok globals ∧
      lib = { about with globals := globals } ∧ (lib.base = [] → lib.Closed) := by
  unfold parseOlder at h
  split at h
  · cases h
  · rename_i table htable
    have hglobals : ∀ about : Library, ((nodeOf name (.table (table.erase metaKey))).bind fun n =>
          ((Decoder.mk name (.ofNode n)).fields n "globals" []).bind fun globals =>
            Library.closed { about with globals := globals } name) = .ok lib →
        ∃ n globals, (Decoder.mk name (.ofNode n)).fields n "globals" [] = .ok globals ∧
          lib = { about with globals := globals } ∧ (lib.base = [] → lib.Closed) := by
      intro about h
      obtain ⟨n, -, h⟩ := bind_eq_ok_iff.mp h
      obtain ⟨globals, hglobals, h⟩ := bind_eq_ok_iff.mp h
      obtain ⟨rfl, hclosed⟩ := closed_eq_ok_iff.mp h
      exact ⟨n, globals, hglobals, rfl, hclosed⟩
    split at h
    · rename_i v hv
      obtain ⟨about, habout, h⟩ := bind_eq_ok_iff.mp h
      obtain ⟨n, globals, h⟩ := hglobals about h
      exact ⟨table, about, n, globals, htable, .inl ⟨v, hv, habout⟩, h⟩
    · obtain ⟨n, globals, h⟩ := hglobals .empty h
      exact ⟨table, .empty, n, globals, htable, .inr rfl, h⟩

theorem regular_of_parseOlder (h : parseOlder name text = .ok lib) :
    lib.Regular ∧ (lib.base = [] → lib.Closed) := by
  obtain ⟨table, about, n, globals, -, habout, hglobals, rfl, hclosed⟩ := parseOlder_cases h
  have hcollected : about.Collected := by
    rcases habout with ⟨v, -, hv⟩ | rfl
    · exact collected_ofMeta hv
    · exact collected_empty
  exact ⟨Collected.regular ⟨sorted_fields sorted_nil hglobals, hcollected.structs⟩, hclosed⟩

/-- Every document that can be read describes a regular library, and one without a base has all the
shared tables it needs. -/
theorem regular_of_parseDocument {path : Bytes} (h : parseDocument path text = .ok lib) :
    lib.Regular ∧ (lib.base = [] → lib.Closed) := by
  have h := mapError_eq_ok_iff.mp h
  split at h
  · exact regular_of_parseOlder h
  · exact regular_of_parse h

end Library

end LuaLint
