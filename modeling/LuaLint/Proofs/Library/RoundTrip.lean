import LuaLint.Proofs.Library.Decoded
import LuaLint.Proofs.Library.Descriptors

/-!
# Libraries are read back

A library that is written as a document is decoded from that document again. The document lists the
fields under their dotted names, each table before what is in it; decoding puts them into place one
by one. When a field is put into place, everything that precedes it in the tree is there already,
and nothing else.

Main statements: `Field.placesAll_listing`, `Decoder.library_of_alike`.
-/

namespace LuaLint

open List Yaml Bytes NameMap Yaml.Node

variable {path : List Bytes} {children : List (Bytes × Field)} {f : Field}
  {es : List (List Bytes × Field)} {what : Bytes}

namespace Field

/-! ## Listings -/

mutual

/-- The field and the fields below it, without their nested fields and with their paths. A table
that is known by its nested fields alone is left out. -/
def listing (path : List Bytes) : Field → List (List Bytes × Field)
  | .mk shape note text children =>
    (if (Field.mk shape note text children).entries.isEmpty then []
      else [(path, .mk shape note text [])]) ++ listingAll path children

def listingAll (path : List Bytes) : List (Bytes × Field) → List (List Bytes × Field)
  | [] => []
  | (name, f) :: rest => f.listing (path ++ [name]) ++ listingAll path rest

end

theorem listing_eq (path : List Bytes) (f : Field) :
    f.listing path = (if f.entries.isEmpty then [] else [(path, f.withChildren [])]) ++
      listingAll path f.children := by
  cases f
  rfl

/-- Puts a name in front of the path of an entry. -/
def nest (name : Bytes) (e : List Bytes × Field) : List Bytes × Field := (name :: e.1, e.2)

mutual

/-- A longer path is the same listing, nested once more. -/
theorem listing_cons (name : Bytes) (path : List Bytes) :
    ∀ f : Field, f.listing (name :: path) = (f.listing path).map (nest name)
  | .mk shape note text children => by
    rw [listing, listing, map_append, listingAll_cons name path children]
    split <;> rfl

theorem listingAll_cons (name : Bytes) (path : List Bytes) :
    ∀ children, listingAll (name :: path) children = (listingAll path children).map (nest name)
  | [] => rfl
  | (_, f) :: rest => by
    rw [listingAll, listingAll, map_append, cons_append, listing_cons name _ f,
      listingAll_cons name path rest]

end

theorem mem_listingAll {e : List Bytes × Field} :
    e ∈ listingAll path children ↔ ∃ c ∈ children, e ∈ c.2.listing (path ++ [c.1]) := by
  induction children with
  | nil => simp [listingAll]
  | cons c rest ih => simp [listingAll, ih]

/-- What is known of each entry of a listing: its path can be spelled, and its field can be
described by itself. -/
structure Listed (e : List Bytes × Field) : Prop where
  path : e.1 ≠ []
  segments : ∀ name ∈ e.1, IsSegment name
  described : e.2.descriptor? = some (.mapping 0 e.2.entries)
  bare : e.2.withChildren [] = e.2
  message : ∀ note ∈ e.2.deprecated, note.message ≠ []
  struct : e.2.shape ≠ .struct []

/-- The entries of the listing of a field that can be written are in order. -/
theorem listed_of_mem_listing (hregular : f.Everywhere Regular) (hspelled : f.Everywhere Spelled)
    (hne : path ≠ []) (hpath : ∀ name ∈ path, IsSegment name) : ∀ e ∈ f.listing path, Listed e := by
  induction hregular generalizing path with
  | @mk f hf _ ih =>
    intro e he
    rw [listing_eq, mem_append, mem_listingAll] at he
    rcases he with he | ⟨c, hc, he⟩
    · -- The field itself.
      split at he
      · cases he
      · rename_i hentries
        cases mem_singleton.mp he
        refine ⟨hne, hpath, ?_, rfl, hspelled.here.message, hf.struct⟩
        exact if_neg hentries
    · -- A field below it, whose path is longer.
      apply ih c hc (hspelled.nested c hc) (by simp) _ e he
      intro name hname
      rcases mem_append.mp hname with hname | hname
      · exact hpath name hname
      · rw [mem_singleton.mp hname]
        exact hf.names c hc

theorem listed_of_mem_listingAll (hnames : ∀ c ∈ children, IsSegment c.1)
    (hregular : ∀ c ∈ children, c.2.Everywhere Regular)
    (hspelled : ∀ c ∈ children, c.2.Everywhere Spelled) :
    ∀ e ∈ listingAll [] children, Listed e := by
  intro e he
  obtain ⟨c, hc, he⟩ := mem_listingAll.mp he
  apply listed_of_mem_listing (hregular c hc) (hspelled c hc) _ _ e he
  · simp
  · simpa using hnames c hc

/-- A field that can be written leaves something in the listing. -/
theorem listing_ne_nil (h : f.Everywhere Spelled) (path : List Bytes) : f.listing path ≠ [] := by
  induction h generalizing path with
  | @mk f hf _ ih =>
    rw [listing_eq]
    split
    · -- Without a description the field is a bare table, so that there is a field in it.
      rename_i hempty
      have hbare := eq_table_of_isEmpty hempty
      have hne : f.children ≠ [] := by
        apply hf.table <;> rw [hbare] <;> rfl
      obtain ⟨⟨name, g⟩, rest, hchildren⟩ := exists_cons_of_ne_nil hne
      have hg := ih (name, g) (by rw [hchildren]; exact mem_cons_self ..) (path ++ [name])
      simp [hchildren, listingAll, hg]
    · simp

/-! ## Putting fields into place -/

/-- Wherever it comes from, the field is put at a path. -/
def Places (f : Field) (path : List Bytes) (m m' : NameMap Field) : Prop :=
  ∀ (d : Decoder) (key : Yaml.Node) (text : Bytes) (passed : List Bytes),
    d.inflate key text f passed path m = .ok m'

/-- The listed fields are put into place one after the other. -/
inductive PlacesAll : List (List Bytes × Field) → NameMap Field → NameMap Field → Prop where
  | nil {m : NameMap Field} : PlacesAll [] m m
  | cons {path : List Bytes} {f : Field} {rest : List (List Bytes × Field)}
      {m m₁ m₂ : NameMap Field} :
      f.Places path m m₁ → PlacesAll rest m₁ m₂ → PlacesAll ((path, f) :: rest) m m₂

theorem PlacesAll.append {es' : List (List Bytes × Field)} {m m₁ m₂ : NameMap Field}
    (h : PlacesAll es m m₁) (h' : PlacesAll es' m₁ m₂) : PlacesAll (es ++ es') m m₂ := by
  induction h with
  | nil => exact h'
  | cons hf _ ih => exact .cons hf (ih h')

variable {f parent : Field} {name : Bytes} {m children children' : NameMap Field}

/-- A field is put under a new name. -/
theorem places_new (hname : name ≠ []) (h : m.get? name = none) :
    f.Places [name] m (m.insert name f) := by
  intro d key text passed
  simp [Decoder.inflate, hname, h]

/-- A field is put below a parent, which is made as a plain table if there is none. -/
theorem places_under (hname : name ≠ []) (hnests : parent.shape.nests = true)
    (hparent : (m.get? name).getD (.table []) = parent.withChildren children) (hpath : path ≠ [])
    (h : f.Places path children children') :
    f.Places (name :: path) m (m.insert name (parent.withChildren children')) := by
  intro d key text passed
  obtain ⟨next, rest, rfl⟩ := exists_cons_of_ne_nil hpath
  simp [Decoder.inflate, hname, hparent, hnests, h d key text (passed ++ [name]), Except.map]

/-- What is built by itself is built below a parent that is there. -/
theorem PlacesAll.nest (h : PlacesAll es children children') (hname : name ≠ [])
    (hnests : parent.shape.nests = true) (hpaths : ∀ e ∈ es, e.1 ≠ []) :
    PlacesAll (es.map (nest name)) (m.insert name (parent.withChildren children))
      (m.insert name (parent.withChildren children')) := by
  induction h with
  | nil => exact .nil
  | @cons path f rest c c₁ c₂ hf _ ih =>
    rw [forall_mem_cons] at hpaths
    have hthere : ((m.insert name (parent.withChildren c)).get? name).getD (.table []) =
        parent.withChildren c := by
      rw [get?_insert_self, Option.getD_some]
    have hplace := places_under hname hnests hthere hpaths.1 hf
    rw [insert_insert] at hplace
    exact .cons hplace (ih hpaths.2)

/-- It is also built below a new table, which the first field brings about. -/
theorem PlacesAll.nest_new (h : PlacesAll es [] children') (hname : name ≠ [])
    (hnew : m.get? name = none) (hpaths : ∀ e ∈ es, e.1 ≠ []) (hne : es ≠ []) :
    PlacesAll (es.map (Field.nest name)) m (m.insert name (.table children')) := by
  cases h with
  | nil => exact absurd rfl hne
  | @cons path f rest _ c₁ _ hf hrest =>
    rw [forall_mem_cons] at hpaths
    have hplace : f.Places (name :: path) m (m.insert name ((table []).withChildren c₁)) :=
      places_under hname rfl (by rw [hnew]; rfl) hpaths.1 hf
    have hmore : PlacesAll (rest.map (Field.nest name))
        (m.insert name ((table []).withChildren c₁))
        (m.insert name ((table []).withChildren children')) := hrest.nest hname rfl hpaths.2
    exact .cons hplace hmore

/-! ## Trees are rebuilt from their listings -/

mutual

/-- What is in a field is built from nothing. -/
theorem placesAll_below : ∀ {f : Field}, f.Everywhere Regular → f.Everywhere Spelled →
    PlacesAll (listingAll [] f.children) [] f.children
  | .mk _ _ _ children, hregular, hspelled => by
    have h := placesAll_listing children [] hregular.here.names hregular.here.ascending
      hregular.nested hspelled.nested
    simpa using h

/-- Putting the listed fields into place, in the order of the listing, builds the tree. The names
that are there already come before those of the listed fields. -/
theorem placesAll_listing : ∀ (children : List (Bytes × Field)) (m : NameMap Field),
    (∀ e ∈ children, IsSegment e.1) → Ascending (m ++ children) →
    (∀ e ∈ children, e.2.Everywhere Regular) → (∀ e ∈ children, e.2.Everywhere Spelled) →
    PlacesAll (listingAll [] children) m (m ++ children)
  | [], m, _, _, _, _ => by
    rw [append_nil]
    exact .nil
  | (name, f) :: rest, m, hnames, hascending, hregular, hspelled => by
    rw [forall_mem_cons] at hnames hregular hspelled
    -- Names ascend, so that the field goes behind all that is there.
    have hbefore : ∀ e ∈ m, e.1 < name := fun e he =>
      (ascending_append.mp hascending).2.2 e he (name, f) (mem_cons_self ..)
    have hnew : m.get? name = none := by
      rw [get?_eq_none_iff]
      intro hmem
      obtain ⟨e, he, heq⟩ := mem_map.mp hmem
      exact List.lt_irrefl name (heq ▸ hbefore e he)
    have hlast : ∀ g : Field, m.insert name g = m ++ [(name, g)] := fun g =>
      insert_eq_append hbefore
    have hbelow := placesAll_below hregular.1 hspelled.1
    have hpaths : ∀ e ∈ listingAll [] f.children, e.1 ≠ [] := fun e he =>
      (listed_of_mem_listingAll hregular.1.here.names hregular.1.nested hspelled.1.nested e he).path
    have hfirst : PlacesAll (f.listing [name]) m (m ++ [(name, f)]) := by
      rw [listing_eq, listingAll_cons]
      split
      · -- The field is a bare table, which the first field in it brings about.
        rename_i hempty
        have hbare := eq_table_of_isEmpty hempty
        have hne : listingAll [] f.children ≠ [] := by
          have := listing_ne_nil hspelled.1 []
          rwa [listing_eq, if_pos hempty] at this
        have hplaced := hbelow.nest_new hnames.1.1 hnew hpaths hne
        rwa [← hbare, hlast] at hplaced
      · -- The field is put into place by itself, and then what is in it.
        rw [singleton_append]
        refine .cons (places_new hnames.1.1 hnew) ?_
        -- A leaf has nothing in it, so that it is complete by itself.
        cases hnests : f.shape.nests with
        | true =>
          have hplaced := hbelow.nest (m := m) hnames.1.1 hnests hpaths
          rwa [withChildren_children, hlast f] at hplaced
        | false =>
          have hleaf := hregular.1.here.leaf hnests
          have hsame : f.withChildren [] = f := by rw [← hleaf, withChildren_children]
          rw [hleaf, hsame, hlast]
          exact .nil
    have hrest := placesAll_listing rest (m ++ [(name, f)]) hnames.2 (by simpa using hascending)
      hregular.2 hspelled.2
    rw [listingAll, nil_append]
    simpa using hfirst.append hrest

end

/-! ## Written listings -/

/-- An entry of a listing, written under its dotted name. -/
def written (e : List Bytes × Field) : Yaml.Node × Yaml.Node :=
  Yaml.entry (Bytes.join "." e.1) (.mapping 0 e.2.entries)

/-- A dotted name is extended by a name. -/
theorem join_snoc (hpath : ∀ name ∈ path, IsSegment name) (name : Bytes) :
    Bytes.join "." (path ++ [name]) =
      if (Bytes.join "." path).isEmpty then name else Bytes.join "." path ++ "." ++ name := by
  cases path with
  | nil => simp [join, intercalate]
  | cons p rest =>
    have hne : join "." (p :: rest) ≠ [] := by
      have hp : p ≠ [] := (hpath p (mem_cons_self ..)).1
      cases rest <;> simp [join, intercalate, intersperse, hp]
    rw [join_append_singleton (cons_ne_nil p rest), if_neg]
    simpa using hne

mutual

/-- The document of a field is its listing, written down. -/
theorem flatten_eq {path : List Bytes} (hpath : ∀ name ∈ path, IsSegment name) :
    ∀ {f : Field}, f.Everywhere Regular →
      f.flatten (Bytes.join "." path) = (f.listing path).map written
  | .mk shape note text children, h => by
    have hchildren : flattenAll (join "." path) children = _ :=
      flattenAll_eq hpath h.here.names h.nested
    rw [flatten, listing, map_append, hchildren, descriptor?_eq]
    split <;> rfl

theorem flattenAll_eq {path : List Bytes} (hpath : ∀ name ∈ path, IsSegment name) :
    ∀ {children : List (Bytes × Field)}, (∀ e ∈ children, IsSegment e.1) →
      (∀ e ∈ children, e.2.Everywhere Regular) →
      flattenAll (Bytes.join "." path) children = (listingAll path children).map written
  | [], _, _ => rfl
  | (name, f) :: rest, hnames, h => by
    rw [forall_mem_cons] at hnames h
    have hlonger : ∀ other ∈ path ++ [name], IsSegment other := by
      intro other hother
      rcases mem_append.mp hother with hother | hother
      · exact hpath other hother
      · rw [mem_singleton.mp hother]
        exact hnames.1
    rw [flattenAll, listingAll, map_append, flattenAll_eq hpath hnames.2 h.2,
      ← join_snoc hpath, flatten_eq hlonger h.1]

end

end Field

namespace Decoder

open LuaLint.Field

variable {d : Decoder}

def fieldsKey (d : Decoder) (fields : NameMap Field) (text : Bytes) (k v : Yaml.Node) :
    Result (NameMap Field) :=
  (d.field (d.document.size + 1) v).bind fun f => d.place k text f fields

/-- Decoding a written listing puts its fields into place. -/
theorem folds_written {m m' : NameMap Field} (h : PlacesAll es m m')
    (hlisted : ∀ e ∈ es, Listed e) : Folds d what d.fieldsKey (es.map written) m m' := by
  induction h with
  | nil => exact .nil
  | @cons path f rest m m₁ m₂ hplace _ ih =>
    rw [forall_mem_cons] at hlisted
    obtain ⟨hf, hrest⟩ := hlisted
    refine .cons (fun k v' hv => ?_) (ih hrest)
    have hfield : d.field (d.document.size + 1) v' = .ok (f.withChildren []) :=
      field_of_descriptor hf.described hf.message hf.struct hv
    -- No name has a dot in it, so that the path is found again.
    have hsplit : split (byte '.') (join "." path) = path :=
      split_join hf.path fun p hp => (hf.segments p hp).2
    rw [fieldsKey, hfield, hf.bare]
    show d.place k _ f m = _
    rw [place, hsplit]
    exact hplace d k _ []

/-- The fields of a document are those that it is written for. -/
theorem fields_of_alike {n : Yaml.Node} {children : NameMap Field}
    (htable : (table children).Regular) (hregular : ∀ e ∈ children, e.2.Everywhere Regular)
    (hspelled : ∀ e ∈ children, e.2.Everywhere Field.Spelled)
    (h : (mapping 0 (flattenAll [] children)).Alike n) :
    d.fields n what [] = .ok children := by
  have hplaces := placesAll_listing children [] htable.names htable.ascending hregular hspelled
  have hwritten : flattenAll (join "." []) children = (listingAll [] children).map written :=
    flattenAll_eq (by simp) htable.names hregular
  have hlisted := listed_of_mem_listingAll htable.names hregular hspelled
  rw [show join "." [] = [] from rfl] at hwritten
  rw [hwritten] at h
  exact (folds_written hplaces hlisted).pairs_eq h

/-! ## Libraries -/

/-- Shared tables are decoded one by one, in ascending order. -/
theorem folds_structs (what : Bytes) (structs m : NameMap Field)
    (hascending : Ascending (m ++ structs))
    (hbodies : ∀ e ∈ structs, e.2.Regular ∧ e.2 = .table e.2.children)
    (hregular : ∀ e ∈ structs, ∀ c ∈ e.2.children, c.2.Everywhere Regular)
    (hspelled : ∀ e ∈ structs, ∀ c ∈ e.2.children, c.2.Everywhere Field.Spelled) : Folds d what
      (fun tables name _ v =>
        (d.fields v ("struct " ++ name) []).map fun children =>
          tables.insert name (.table children))
      (structs.map fun table =>
        entry table.1 (.mapping 0 (flattenAll [] table.2.children)))
      m (m ++ structs) := by
  induction structs generalizing m with
  | nil =>
    rw [append_nil]
    exact .nil
  | cons e rest ih =>
    obtain ⟨name, body⟩ := e
    rw [forall_mem_cons] at hbodies hregular hspelled
    have hbefore : ∀ e ∈ m, e.1 < name := fun e he =>
      (ascending_append.mp hascending).2.2 e he (name, body) (mem_cons_self ..)
    have hrest :=
      ih (m ++ [(name, body)]) (by simpa using hascending) hbodies.2 hregular.2 hspelled.2
    rw [append_assoc, singleton_append] at hrest
    refine .cons (fun k v' hv => ?_) hrest
    have htable : (table body.children).Regular := hbodies.1.2 ▸ hbodies.1.1
    rw [fields_of_alike htable hregular.1 hspelled.1 hv]
    show Except.ok (m.insert name (.table body.children)) = _
    rw [← hbodies.1.2, insert_eq_append hbefore]

variable {lib : Library}

/-- The four parts of a document fill a library, one after the other. -/
theorem folds_library (h : lib.Regular) (hspelled : lib.Everywhere Field.Spelled) :
    ∃ entries, lib.node = .mapping 0 entries ∧
      Folds d "document" d.libraryKey entries .empty lib := by
  obtain ⟨name, base, globals, structs⟩ := lib
  refine ⟨_, rfl, ?_⟩
  -- An empty name or base is left out, and decoding begins with empty ones.
  have hname : Folds d "document" d.libraryKey
      (if name.isEmpty then [] else [entry "name" (.text name)]) .empty
      ⟨name, [], [], []⟩ := by
    cases name with
    | nil => exact .nil
    | cons b rest =>
      refine .single fun k v' hv => ?_
      show (d.scalar v').map _ = _
      rw [scalar_of_alike hv]
      rfl
  have hbase : Folds d "document" d.libraryKey
      (if base.isEmpty then [] else [entry "base" (.text base)]) ⟨name, [], [], []⟩
      ⟨name, base, [], []⟩ := by
    cases base with
    | nil => exact .nil
    | cons b rest =>
      refine .single fun k v' hv => ?_
      show (d.scalar v').map _ = _
      rw [scalar_of_alike hv]
      rfl
  have hglobals : Folds d "document" d.libraryKey
      [entry "globals" (.mapping 0 (Field.flattenAll [] globals))] ⟨name, base, [], []⟩
      ⟨name, base, globals, []⟩ := by
    refine .single fun k v' hv => ?_
    show (d.fields v' "globals" []).map _ = _
    rw [fields_of_alike h.globals h.fields.globals hspelled.globals hv]
    rfl
  refine ((hname.append hbase).append hglobals).append ?_
  have hfold := folds_structs (d := d) "structs" structs [] h.structs h.bodies
    h.fields.structs hspelled.structs
  cases structs with
  | nil => exact .nil
  | cons e rest =>
    refine .single fun k v' hv => ?_
    show (d.structs v' []).map _ = _
    have : d.structs v' [] = .ok (e :: rest) := hfold.pairs_eq hv
    rw [this]
    rfl

/-- A library that is in order is decoded from what it is written as. -/
theorem library_of_alike (h : lib.Regular) (hspelled : lib.Everywhere Field.Spelled)
    (hclosed : lib.base = [] → lib.Closed) (halike : lib.node.Alike d.document.root) :
    d.library = .ok lib := by
  obtain ⟨entries, hnode, hfold⟩ := folds_library (d := d) h hspelled
  rw [hnode] at halike
  rw [library, libraryBy, hfold.pairs_eq halike]
  exact Library.closed_eq_ok_iff.mpr ⟨rfl, hclosed⟩

end Decoder

/-! ## Documents are free of aliases -/

theorem Argument.node_alike_self (a : Argument) : a.node.Alike a.node := by
  obtain ⟨r, t, o⟩ := a
  -- The node of a type is a text, a list of texts or a mapping.
  have htype : t.node.Alike t.node := by
    cases t with
    | constant values => exact texts_alike_self values
    | display label =>
      apply alikeEntries_self
      simp [entry]
    | _ => exact text_alike_self _
  rw [Argument.node_eq]
  apply alikeEntries_self
  simp only [forall_mem_append, forall_mem_singleton]
  refine ⟨⟨?_, text_alike_self _, htype⟩, ?_⟩
  · cases r with
    | optional => simp [Requirement.entries, entry]
    | required reason => cases reason <;> simp [Requirement.entries, entry]
  · cases o <;> simp [Observes.entries, entry]

theorem Deprecation.node_alike_self (note : Deprecation) : note.node.Alike note.node := by
  obtain ⟨message, replace⟩ := note
  apply alikeEntries_self
  cases replace <;> simp [entry]

theorem FieldShape.entries_alike_self (shape : FieldShape) :
    ∀ e ∈ shape.entries, e.1.Alike e.1 ∧ e.2.Alike e.2 := by
  cases shape with
  | function f =>
    obtain ⟨args, method, mustUse⟩ := f
    have hargs : (sequence 0 false (args.map Argument.node)).Alike
        (sequence 0 false (args.map Argument.node)) := by
      apply alikeAll_self
      simp [Argument.node_alike_self]
    cases method <;> cases mustUse <;> simp [entries, entry, hargs]
  | _ => simp [entries, entry]

theorem Field.entries_alike_self (f : Field) : ∀ e ∈ f.entries, e.1.Alike e.1 ∧ e.2.Alike e.2 := by
  obtain ⟨shape, note, text, children⟩ := f
  simp only [entries, forall_mem_append]
  refine ⟨⟨FieldShape.entries_alike_self shape, ?_⟩, ?_⟩
  · cases note <;> simp [entry, deprecated, Deprecation.node_alike_self]
  · cases text <;> simp [entry, description]

mutual

theorem Field.flatten_alike_self : ∀ (path : Bytes) (f : Field),
    ∀ e ∈ f.flatten path, e.1.Alike e.1 ∧ e.2.Alike e.2
  | path, .mk shape note text children => by
    rw [flatten, forall_mem_append, descriptor?_eq]
    refine ⟨?_, flattenAll_alike_self path children⟩
    split
    · simp
    · have hentries : (mapping 0 (mk shape note text children).entries).Alike
          (.mapping 0 (mk shape note text children).entries) :=
        alikeEntries_self (entries_alike_self _)
      simpa [entry] using hentries

theorem Field.flattenAll_alike_self : ∀ (path : Bytes) (children : List (Bytes × Field)),
    ∀ e ∈ flattenAll path children, e.1.Alike e.1 ∧ e.2.Alike e.2
  | _, [] => by simp [flattenAll]
  | path, (name, f) :: rest => by
    rw [flattenAll, forall_mem_append]
    exact ⟨flatten_alike_self _ f, flattenAll_alike_self path rest⟩

end

theorem Library.node_alike_self (lib : Library) : lib.node.Alike lib.node := by
  obtain ⟨name, base, globals, structs⟩ := lib
  have hfields : ∀ children, (mapping 0 (Field.flattenAll [] children)).Alike
      (mapping 0 (Field.flattenAll [] children)) := fun children =>
    alikeEntries_self (Field.flattenAll_alike_self [] children)
  have hstructs : (mapping 0 (structs.map fun table =>
        entry table.1 (.mapping 0 (Field.flattenAll [] table.2.children)))).Alike
      (mapping 0 (structs.map fun table =>
        entry table.1 (.mapping 0 (Field.flattenAll [] table.2.children)))) := by
    apply alikeEntries_self
    intro e he
    obtain ⟨table, _, rfl⟩ := mem_map.mp he
    exact ⟨text_alike_self _, hfields _⟩
  apply alikeEntries_self
  simp only [forall_mem_append, forall_mem_singleton]
  refine ⟨⟨⟨?_, ?_⟩, text_alike_self _, hfields globals⟩, ?_⟩
  · cases name <;> simp [entry]
  · cases base <;> simp [entry]
  · split
    · simp
    · simpa [entry] using hstructs

/-! ## Libraries are read back -/

namespace Library

end Library

end LuaLint
