import LuaLint.Proofs.Library.Decoded

/-!
# What becomes of declared fields

A document can declare a field under a dotted name, nested in the description of another field, or
both ways at once. A field that is put where a plain table is keeps what is in that table, except
for the names nested in its own description; and what is nested in a field that stands for anything,
or for a removal, is passed over. All other declared fields are in the library, in whatever order.

Main statements: `Decoder.placed_inflate`, `Decoder.holds_of_lasts`, `Decoder.library_keeps`.
-/

namespace LuaLint

open List NameMap

variable {path q : List Bytes} {e : Entry} {fuel' : Nat} {what : Bytes}

/-! ## Fields by their paths -/

namespace Field

/-- The field at a path below a field, without its nested fields. -/
def look (f : Field) : List Bytes → Option Field
  | [] => some (f.withChildren [])
  | name :: rest => (f.children.get? name).bind fun g => g.look rest

variable {f g : Field} {name : Bytes} {path : List Bytes} {m : NameMap Field}

theorem look_table (h : path ≠ []) : (table f.children).look path = f.look path := by
  cases path with
  | nil => exact absurd rfl h
  | cons name rest => rfl

theorem eq_of_look (hf : f.Everywhere Regular) (hg : g.Everywhere Regular)
    (h : ∀ path, f.look path = g.look path) : f = g := by
  induction hf generalizing g with
  | @mk f hf _ ih =>
    have hchildren : f.children = g.children := by
      refine ext_of_ascending hf.ascending hg.here.ascending fun name => ?_
      cases hfget : f.children.get? name with
      | none =>
        cases hgget : g.children.get? name with
        | none => rfl
        | some g' => simpa [look, hfget, hgget] using h [name]
      | some f' =>
        cases hgget : g.children.get? name with
        | none => simpa [look, hfget, hgget] using h [name]
        | some g' =>
          have hmem := mem_of_get? hgget
          refine congrArg some (ih _ (mem_of_get? hfget) (hg.nested _ hmem) fun path => ?_)
          simpa [look, hfget, hgget] using h (name :: path)
    have hown : f.withChildren [] = g.withChildren [] := Option.some.inj (h [])
    rw [← withChildren_children f, ← withChildren_children g, ← hchildren,
      ← withChildren_withChildren f [], hown, withChildren_withChildren]

end Field

/-- The globals or the fields of a shared table. -/
def Library.fieldsOf (lib : Library) : Option Bytes → Option (NameMap Field)
  | none => some lib.globals
  | some name => (lib.structs.get? name).map Field.children

namespace Decoder

open LuaLint.Field

variable {d d' : Decoder} {key n v : Yaml.Node} {text : Bytes} {m m' : NameMap Field} {f g : Field}

/-- Whether a path leads to a field or through one of the fields that are nested in it. -/
def enters (f : Field) : List Bytes → Bool
  | [] => true
  | name :: _ => (f.children.get? name).isSome

theorem enters_of_look (h : f.look path = some g) : enters f path = true := by
  cases path with
  | nil => rfl
  | cons name rest =>
    obtain ⟨f', hget, -⟩ := Option.bind_eq_some_iff.mp h
    exact Option.isSome_of_eq_some hget

/-- The fields at all paths, before and after a field has been put at one of them. It only takes the
place of a plain table, from which it drops the names that are nested in it. -/
def Placed (f : Field) (path : List Bytes) (m m' : NameMap Field) : Prop :=
  (∀ g ∈ (table m).look path, g = table [] ∧ f.shape.nests = true) ∧
  ∀ q, (table m').look q =
    if path <+: q ∧ enters f (q.drop path.length) = true then f.look (q.drop path.length)
    else ((table m).look q).or (if q <+: path then some (table []) else none)

/-- The decoder puts a field where its path says. -/
theorem placed_inflate (hf : f.children.Ascending) {passed : List Bytes} (hpath : path ≠ [])
    (h : d.inflate key text f passed path m = .ok m') : Placed f path m m' := by
  induction path generalizing passed m m' with
  | nil => exact absurd rfl hpath
  | cons name rest ih =>
    obtain ⟨-, g, rfl, hg⟩ := inflate_cons h
    -- Only the field of the first name changes.
    suffices hname : (∀ g ∈ (table m).look (name :: rest), g = table [] ∧ f.shape.nests = true) ∧
        ∀ q, g.look q = if rest <+: q ∧ enters f (q.drop rest.length) = true
          then f.look (q.drop rest.length)
          else ((table m).look (name :: q)).or (if q <+: rest then some (table []) else none) by
      refine ⟨hname.1, fun q => ?_⟩
      cases q with
      | nil => simp [look]
      | cons x q =>
        by_cases hx : x = name
        · subst hx
          have hthere : (table (m.insert x g)).look (x :: q) = g.look q := by simp [look]
          simp [hthere, hname.2 q]
        · simp [look, get?_insert_of_ne hx, hx, Ne.symm hx]
    rcases hg with ⟨rfl, hget, rfl⟩ | ⟨old, rfl, hget, hnests, rfl⟩ |
      ⟨parent, children, hparent, -, hrest, hc, rfl⟩
    · refine ⟨by simp [look, hget], fun q => ?_⟩
      cases q with
      | nil => simp [enters]
      | cons x q => cases hx : g.children.get? x <;> simp [look, enters, hget, hx]
    · refine ⟨by simp [look, hget, hnests], fun q => ?_⟩
      cases q with
      | nil => simp [look, enters]
      | cons x q =>
        cases hx : f.children.get? x <;> simp [look, enters, hget, get?_insertAll hf, hx]
    · obtain ⟨hplain, hbelow⟩ := ih hrest hc
      have hold : ∀ q, q ≠ [] → (table m).look (name :: q) = (table parent.children).look q := by
        intro q hq
        rw [look_table hq, ← hparent]
        cases hget : m.get? name with
        | none =>
          obtain ⟨x, q, rfl⟩ := exists_cons_of_ne_nil hq
          simp [look, hget]
        | some existing => simp [look, hget]
      refine ⟨hold rest hrest ▸ hplain, fun q => ?_⟩
      cases q with
      | nil => cases hget : m.get? name <;> simp [look, hrest, ← hparent, hget]
      | cons x q =>
        rw [hold _ (cons_ne_nil x q), ← hbelow]
        rfl

/-! ## Declarations -/

/-- A key with its text and the value that it is given. -/
abbrev Entry := Bytes × Yaml.Node × Yaml.Node

/-- The names on the path that a key spells. -/
def segments (e : Entry) : List Bytes := Bytes.split (Bytes.byte '.') e.1

/-- What a description says of the field itself. -/
def own (d : Decoder) (v : Yaml.Node) : Field :=
  match d.pairs v "field" .blank d.fieldKey with
  | .ok f =>
    .mk (if f.isAny then .any else if f.isRemoved then .removed
      else (d.shapeOf v f).toOption.getD .table) f.deprecated f.description []
  | .error _ => .table []

/-- The entries of a description that declare further fields. -/
def inner (d : Decoder) (v : Yaml.Node) : List Entry :=
  match d.pairs v "field" .blank d.fieldKey with
  | .ok f => f.children.reverse
  | .error _ => []

/-- The entries declare a field at a path, by its dotted name, nested, or both. -/
inductive Declares (d : Decoder) : List Entry → List Bytes → Field → Prop where
  | own {es : List Entry} {e : Entry} : e ∈ es → Declares d es (segments e) (d.own e.2.2)
  | inner {es : List Entry} {e : Entry} {path : List Bytes} {g : Field} :
      e ∈ es → Declares d (d.inner e.2.2) path g → Declares d es (segments e ++ path) g

/-- A path leads to or through one of the fields that are nested in the description of an entry. -/
def Covers (d : Decoder) (e : Entry) (path : List Bytes) : Prop :=
  ∃ c ∈ d.inner e.2.2, segments e ++ (segments c).take 1 <+: path

instance (e : Entry) (path : List Bytes) : Decidable (d.Covers e path) :=
  inferInstanceAs (Decidable (∃ c ∈ d.inner e.2.2, segments e ++ (segments c).take 1 <+: path))

/-- The entries declare a field at a path, and it stays: it is not nested in a field that cannot
have fields, and no later entry covers it. -/
inductive Lasts (d : Decoder) : List Entry → List Bytes → Field → Prop where
  | own {earlier later : List Entry} {e : Entry} : (∀ l ∈ later, ¬ d.Covers l (segments e)) →
      Lasts d (earlier ++ e :: later) (segments e) (d.own e.2.2)
  | inner {earlier later : List Entry} {e : Entry} {path : List Bytes} {g : Field} :
      (d.own e.2.2).shape.nests = true → (∀ l ∈ later, ¬ d.Covers l (segments e ++ path)) →
      Lasts d (d.inner e.2.2) path g → Lasts d (earlier ++ e :: later) (segments e ++ path) g

variable {es es' : List Entry} {path : List Bytes} {fuel : Nat}

theorem Declares.head (h : d.Declares es path g) :
    ∃ e ∈ es, ∃ name rest more, segments e = name :: rest ∧ path = name :: more := by
  have hfirst : ∀ e : Entry, ∃ name rest, segments e = name :: rest := fun e =>
    exists_cons_of_ne_nil (Bytes.split_ne_nil _ _)
  cases h with
  | @own _ e he =>
    obtain ⟨name, rest, heq⟩ := hfirst e
    exact ⟨e, he, name, rest, rest, heq, heq⟩
  | @inner _ e below _ he _ =>
    obtain ⟨name, rest, heq⟩ := hfirst e
    exact ⟨e, he, name, rest, rest ++ below, heq, by rw [heq, cons_append]⟩

theorem field_cases (h : d.field fuel v = .ok f) :
    f.withChildren [] = d.own v ∧ ((d.own v).shape.nests = false ∧ f.children = [] ∨
      ∃ fuel', fuel = fuel' + 1 ∧ d.nested (d.field fuel') (d.inner v) [] = .ok f.children) := by
  cases fuel with
  | zero => cases h
  | succ fuel =>
    obtain ⟨draft, hdraft, h⟩ := bind_eq_ok_iff.mp h
    simp only [own, inner, hdraft]
    split at h
    · rename_i hany
      cases h
      exact ⟨by rw [if_pos hany]; rfl, .inl ⟨by rw [if_pos hany]; rfl, rfl⟩⟩
    rename_i hany
    split at h
    · rename_i hremoved
      cases h
      exact ⟨by rw [if_neg hany, if_pos hremoved]; rfl,
        .inl ⟨by rw [if_neg hany, if_pos hremoved]; rfl, rfl⟩⟩
    rename_i hremoved
    obtain ⟨shape, hshape, h⟩ := bind_eq_ok_iff.mp h
    obtain ⟨children, hchildren, rfl⟩ := map_eq_ok_iff.mp h
    rw [if_neg hany, if_neg hremoved, (checkedShape_cases hshape).1]
    exact ⟨rfl, .inr ⟨fuel, rfl, hchildren⟩⟩

/-! ## What is in the library is declared -/

theorem placed_entry (hf : d.field fuel e.2.2 = .ok f) (h : d.place e.2.1 e.1 f m = .ok m') :
    Placed f (segments e) m m' :=
  placed_inflate (everywhere_regular_field hf).here.ascending (Bytes.split_ne_nil _ _) h

theorem look_nested (h : d.nested (d.field fuel) es m = .ok m')
    (hlook : (table m').look q = some g) :
    (table m).look q = some g ∨ ∃ e ∈ es, ∃ f, d.field fuel e.2.2 = .ok f ∧
      ((∃ r, q = segments e ++ r ∧ f.look r = some g) ∨ g = table [] ∧ q <+: segments e) := by
  induction es generalizing m with
  | nil =>
    cases h
    exact .inl hlook
  | cons e rest ih =>
    obtain ⟨f, hf, h⟩ := bind_eq_ok_iff.mp h
    obtain ⟨m₁, hm₁, h⟩ := bind_eq_ok_iff.mp h
    rcases ih h with hlook | ⟨e', he', hfrom⟩
    -- The field is in the first entry, or was there before it.
    · rw [(placed_entry hf hm₁).2] at hlook
      split at hlook
      · rename_i hpath
        obtain ⟨r, rfl⟩ := hpath.1
        rw [drop_left] at hlook
        exact .inr ⟨e, mem_cons_self .., f, hf, .inl ⟨r, rfl, hlook⟩⟩
      · rcases Option.or_eq_some_iff.mp hlook with hlook | ⟨-, hlook⟩
        · exact .inl hlook
        · split at hlook
          · rename_i hprefix
            cases hlook
            exact .inr ⟨e, mem_cons_self .., f, hf, .inr ⟨rfl, hprefix⟩⟩
          · cases hlook
    · exact .inr ⟨e', mem_cons_of_mem _ he', hfrom⟩

/-- What is at a path is declared there, or it is a plain table and something is declared below
it. -/
theorem declares_of_look (h : d.nested (d.field fuel) es [] = .ok m) (hpath : path ≠ [])
    (hlook : (table m).look path = some g) :
    d.Declares es path g ∨ g = table [] ∧ ∃ more g', d.Declares es (path ++ more) g' := by
  induction fuel generalizing es m path with
  | zero =>
    cases es with
    | nil =>
      cases h
      obtain ⟨name, rest, rfl⟩ := exists_cons_of_ne_nil hpath
      cases hlook
    | cons e rest => cases h
  | succ fuel ih =>
    -- The path leads into the field of some entry, or to a table made on the way to one.
    rcases look_nested h hlook with hlook | ⟨e, he, f, hf, ⟨r, rfl, hr⟩ | ⟨rfl, more, hmore⟩⟩
    · obtain ⟨name, rest, rfl⟩ := exists_cons_of_ne_nil hpath
      cases hlook
    · obtain ⟨hown, hinner⟩ := field_cases hf
      cases r with
      | nil =>
        have hg : g = d.own e.2.2 := (Option.some.inj hr).symm.trans hown
        rw [append_nil, hg]
        exact .inl (.own he)
      | cons name rest =>
        rw [← look_table (cons_ne_nil name rest)] at hr
        rcases hinner with ⟨-, hnone⟩ | ⟨_, heq, hnested⟩
        · rw [hnone] at hr
          cases hr
        · cases heq
          rcases ih hnested (cons_ne_nil name rest) hr with h | ⟨rfl, more, g', h⟩
          · exact .inl (.inner he h)
          · refine .inr ⟨rfl, more, g', ?_⟩
            rw [append_assoc]
            exact .inner he h
    · exact .inr ⟨rfl, more, d.own e.2.2, hmore ▸ .own he⟩

/-! ## What is declared and lasts is in the library -/

/-- A field is at a path, or what was declared as a plain table has become more than that. -/
def Holds (m : NameMap Field) (path : List Bytes) (g : Field) : Prop :=
  ∃ f, (table m).look path = some f ∧ (f = g ∨ g = table [] ∧ f.shape.nests = true)

theorem get?_of_not_covers {name : Bytes} {rest : List Bytes} (hf : d.field fuel e.2.2 = .ok f)
    (h : ¬ d.Covers e (segments e ++ name :: rest)) : f.children.get? name = none := by
  cases hget : f.children.get? name with
  | none => rfl
  | some f' =>
    rcases (field_cases hf).2 with ⟨-, hnone⟩ | ⟨fuel, -, hnested⟩
    · rw [hnone] at hget
      cases hget
    · -- The name is the first one of a nested entry.
      have hlook : (table f.children).look [name] =
          some (f'.withChildren []) := by simp [look, hget]
      obtain ⟨more, g, hdeclares⟩ : ∃ more g, d.Declares (d.inner e.2.2) ([name] ++ more) g := by
        rcases declares_of_look hnested (cons_ne_nil name []) hlook with h | ⟨-, h⟩
        · exact ⟨[], _, h⟩
        · exact h
      obtain ⟨c, hc, first, _, _, hsegments, heq⟩ := hdeclares.head
      obtain ⟨rfl, -⟩ := cons.inj heq
      refine absurd ⟨c, hc, ?_⟩ h
      rw [hsegments]
      exact (prefix_append_right_inj _).mpr (by simp)

theorem Holds.place (h : Holds m path g) (hf : d.field fuel e.2.2 = .ok f)
    (hplace : d.place e.2.1 e.1 f m = .ok m') (hfree : ¬ d.Covers e path) : Holds m' path g := by
  obtain ⟨x, hx, hg⟩ := h
  obtain ⟨hplain, hlook⟩ := placed_entry hf hplace
  have hkept : ∀ hnew : ¬ (segments e <+: path ∧ enters f (path.drop (segments e).length) = true),
      Holds m' path g := fun hnew => ⟨x, by rw [hlook, if_neg hnew, hx]; rfl, hg⟩
  by_cases hprefix : segments e <+: path
  · obtain ⟨r, rfl⟩ := hprefix
    rw [drop_left] at hkept
    cases r with
    | nil =>
      -- The field takes the place of a plain table.
      rw [append_nil] at hx ⊢
      obtain ⟨rfl, hnests⟩ := hplain x hx
      refine ⟨f.withChildren [], ?_, .inr ⟨?_, hnests⟩⟩
      · rw [hlook, if_pos ⟨prefix_refl _, by rw [drop_length]; rfl⟩, drop_length]
        rfl
      · rcases hg with hg | hg
        · exact hg.symm
        · exact hg.1
    | cons name rest =>
      refine hkept fun hnew => ?_
      rw [enters, get?_of_not_covers hf hfree] at hnew
      cases hnew.2
  · exact hkept fun hnew => hprefix hnew.1

theorem Holds.nested (h : Holds m path g) (hnested : d.nested (d.field fuel) es m = .ok m')
    (hfree : ∀ e ∈ es, ¬ d.Covers e path) : Holds m' path g := by
  induction es generalizing m with
  | nil =>
    cases hnested
    exact h
  | cons e rest ih =>
    rw [forall_mem_cons] at hfree
    obtain ⟨f, hf, hnested⟩ := bind_eq_ok_iff.mp hnested
    obtain ⟨m₁, hm₁, hnested⟩ := bind_eq_ok_iff.mp hnested
    exact ih (h.place hf hm₁ hfree.1) hnested hfree.2

theorem nested_eq_foldlM {decode : Yaml.Node → Result Field} : d.nested decode es m =
    es.foldlM (fun m e => (decode e.2.2).bind fun f => d.place e.2.1 e.1 f m) m := by
  induction es generalizing m with
  | nil => rfl
  | cons e rest ih =>
    obtain ⟨text, k, v⟩ := e
    rw [foldlM_cons, nested]
    cases decode v with
    | error _ => rfl
    | ok f => exact bind_congr fun _ => ih

theorem nested_append {decode : Yaml.Node → Result Field} : d.nested decode (es ++ es') m = .ok m' ↔
    ∃ m₁, d.nested decode es m = .ok m₁ ∧ d.nested decode es' m₁ = .ok m' := by
  simp only [nested_eq_foldlM, foldlM_append]
  exact bind_eq_ok_iff

theorem Lasts.declares (h : d.Lasts es path g) : d.Declares es path g := by
  induction h with
  | own _ => exact .own (by simp)
  | inner _ _ _ ih => exact .inner (by simp) ih

/-- A declared field that lasts is still there in the end. -/
theorem holds_of_lasts (h : d.nested (d.field fuel) es [] = .ok m) (hlasts : d.Lasts es path g) :
    Holds m path g := by
  induction hlasts generalizing fuel m with
  | @own earlier later e hlater =>
    obtain ⟨m₁, -, h⟩ := nested_append.mp h
    obtain ⟨f, hf, h⟩ := bind_eq_ok_iff.mp h
    obtain ⟨m₂, hm₂, h⟩ := bind_eq_ok_iff.mp h
    refine Holds.nested ⟨d.own e.2.2, ?_, .inl rfl⟩ h hlater
    rw [(placed_entry hf hm₂).2, if_pos ⟨prefix_refl _, by simp [enters]⟩, drop_length,
      ← (field_cases hf).1]
    rfl
  | @inner earlier later e path g hnests hlater hbelow ih =>
    obtain ⟨m₁, -, h⟩ := nested_append.mp h
    obtain ⟨f, hf, h⟩ := bind_eq_ok_iff.mp h
    obtain ⟨m₂, hm₂, h⟩ := bind_eq_ok_iff.mp h
    refine Holds.nested ?_ h hlater
    obtain ⟨-, _, _, _, _, -, hpath⟩ := hbelow.declares.head
    rcases (field_cases hf).2 with ⟨hleaf, -⟩ | ⟨fuel, -, hnested⟩
    · rw [hleaf] at hnests
      cases hnests
    · obtain ⟨x, hx, hg⟩ := ih hnested
      rw [look_table (by simp [hpath])] at hx
      refine ⟨x, ?_, hg⟩
      rw [(placed_entry hf hm₂).2, drop_left, if_pos ⟨prefix_append _ _, enters_of_look hx⟩, hx]

/-! ## The order of declarations -/

/-- The same entries in another order, as are those that are nested in them. -/
inductive Rearranged (d d' : Decoder) : List Entry → List Entry → Prop where
  | nil : Rearranged d d' [] []
  | cons {e e' : Entry} {es es' : List Entry} : e.1 = e'.1 → d.own e.2.2 = d'.own e'.2.2 →
      Rearranged d d' (d.inner e.2.2) (d'.inner e'.2.2) → Rearranged d d' es es' →
      Rearranged d d' (e :: es) (e' :: es')
  | perm {es es' es'' : List Entry} :
      Rearranged d d' es es' → es'.Perm es'' → Rearranged d d' es es''

theorem not_declares_nil : ¬ d.Declares [] path g := fun h => by
  obtain ⟨_, he, _⟩ := h.head
  cases he

theorem Declares.mono (h : d.Declares es path g) (hsub : es ⊆ es') : d.Declares es' path g := by
  cases h with
  | own he => exact .own (hsub he)
  | inner he hbelow => exact .inner (hsub he) hbelow

theorem declares_cons : d.Declares (e :: es) path g ↔
    (path = segments e ∧ g = d.own e.2.2) ∨
      (∃ r, path = segments e ++ r ∧ d.Declares (d.inner e.2.2) r g) ∨ d.Declares es path g := by
  constructor
  · intro h
    cases h with
    | own he =>
      rcases mem_cons.mp he with rfl | he
      · exact .inl ⟨rfl, rfl⟩
      · exact .inr (.inr (.own he))
    | inner he hbelow =>
      rcases mem_cons.mp he with rfl | he
      · exact .inr (.inl ⟨_, rfl, hbelow⟩)
      · exact .inr (.inr (.inner he hbelow))
  · rintro (⟨rfl, rfl⟩ | ⟨r, rfl, h⟩ | h)
    · exact .own (mem_cons_self ..)
    · exact .inner (mem_cons_self ..) h
    · exact h.mono (subset_cons_self ..)

theorem Rearranged.declares_iff (h : Rearranged d d' es es') :
    ∀ path g, d.Declares es path g ↔ d'.Declares es' path g := by
  induction h with
  | nil => exact fun path g => iff_of_false not_declares_nil not_declares_nil
  | @cons e e' es es' htext hown _ _ ihbelow ih =>
    intro path g
    rw [declares_cons, declares_cons, hown, ih, show segments e =
      segments e' by rw [segments, htext, segments]]
    simp only [ihbelow]
  | perm _ hperm ih =>
    exact fun path g =>
      (ih path g).trans ⟨fun h => h.mono hperm.subset, fun h => h.mono hperm.symm.subset⟩

theorem exists_look_of_append {p : List Bytes} (h : f.look (p ++ q) = some g) :
    ∃ g', f.look p = some g' := by
  induction p generalizing f with
  | nil => exact ⟨_, rfl⟩
  | cons name rest ih =>
    obtain ⟨f', hget, h⟩ := Option.bind_eq_some_iff.mp h
    obtain ⟨g', hg'⟩ := ih h
    exact ⟨g', Option.bind_eq_some_iff.mpr ⟨f', hget, hg'⟩⟩

def Settled (d : Decoder) (es : List Entry) : Prop :=
  ∀ path g, d.Declares es path g → d.Lasts es path g

/-- Entries without nested ones do not get into each other's way. -/
theorem settled_of_flat (h : ∀ e ∈ es, d.inner e.2.2 = []) : d.Settled es := by
  intro path g hdeclares
  cases hdeclares with
  | own he =>
    obtain ⟨earlier, later, rfl⟩ := append_of_mem he
    refine .own fun l hl => ?_
    rintro ⟨c, hc, -⟩
    rw [h l (by simp [hl])] at hc
    cases hc
  | inner he hbelow =>
    rw [h _ he] at hbelow
    exact absurd hbelow not_declares_nil

theorem look_of_look (h : d.nested (d.field fuel) es [] = .ok m)
    (h' : d'.nested (d'.field fuel') es' [] = .ok m')
    (hsame : ∀ path g, d.Declares es path g ↔ d'.Declares es' path g) (hsettled : d.Settled es)
    (hsettled' : d'.Settled es') (hlook : (table m).look path = some g) :
    (table m').look path = some g := by
  by_cases hpath : path = []
  · rw [hpath] at hlook ⊢
    exact hlook
  have hbelow : ∀ more g', d.Declares es (path ++ more) g' → g = table [] →
      (table m').look path = some g := by
    rintro more g' hdeclares rfl
    obtain ⟨_, hx, -⟩ := holds_of_lasts h' (hsettled' _ _ ((hsame _ _).mp hdeclares))
    obtain ⟨x, hx⟩ := exists_look_of_append hx
    rw [hx]
    -- Were there more than a plain table, that would be declared, and be in both.
    rcases declares_of_look h' hpath hx with hdeclares | ⟨rfl, -⟩
    · obtain ⟨y, hy, rfl | ⟨rfl, -⟩⟩ := holds_of_lasts h (hsettled _ _ ((hsame _ _).mpr hdeclares))
      · exact hy.symm.trans hlook
      · rfl
    · rfl
  rcases declares_of_look h hpath hlook with hdeclares | ⟨rfl, more, g', hdeclares⟩
  · obtain ⟨x, hx, rfl | ⟨hplain, -⟩⟩ :=
      holds_of_lasts h' (hsettled' _ _ ((hsame _ _).mp hdeclares))
    · exact hx
    · exact hbelow [] g (by rwa [append_nil]) hplain
  · exact hbelow more g' hdeclares rfl

theorem nested_unique (h : d.nested (d.field fuel) es [] = .ok m)
    (h' : d'.nested (d'.field fuel') es' [] = .ok m')
    (hsame : ∀ path g, d.Declares es path g ↔ d'.Declares es' path g) (hsettled : d.Settled es)
    (hsettled' : d'.Settled es') : m = m' := by
  have hsorted := sorted_nested (fun _ _ => everywhere_regular_field) sorted_nil h
  have hsorted' := sorted_nested (fun _ _ => everywhere_regular_field) sorted_nil h'
  refine congrArg Field.children (eq_of_look hsorted hsorted' fun path => Option.ext fun g => ?_)
  exact ⟨look_of_look h h' hsame hsettled hsettled',
    look_of_look h' h (fun path g => (hsame path g).symm) hsettled' hsettled⟩

/-! ## Documents -/

/-- A pair of a mapping, with the text of its key and the value that its value stands for. -/
def entry? (d : Decoder) : Yaml.Node × Yaml.Node → Option Entry
  | (.scalar line tag text, v) => some (text, .scalar line tag text, d.document.resolve v)
  | _ => none

def entriesOf (d : Decoder) (n : Yaml.Node) : List Entry :=
  match d.document.resolve n with
  | .mapping _ pairs => pairs.filterMap d.entry?
  | _ => []

def under (d : Decoder) (key : Bytes) (es : List Entry) : List Entry :=
  (es.filter fun e => e.1 == key).flatMap fun e => d.entriesOf e.2.2

theorem under_cons_self : d.under e.1 (e :: es) = d.entriesOf e.2.2 ++ d.under e.1 es := by
  simp [under]

theorem under_cons_of_ne {key : Bytes} (h : e.1 ≠ key) :
    d.under key (e :: es) = d.under key es := by
  simp [under, h]

def sectionOf (d : Decoder) (key : Bytes) : List Entry := d.under key (d.entriesOf d.document.root)

/-- The entries that declare the globals or the fields of a shared table, of which the last one with
its name counts. -/
def declarations (d : Decoder) : Option Bytes → Option (List Entry)
  | none => some (d.sectionOf "globals")
  | some name =>
    ((d.sectionOf "structs").reverse.find? fun e => e.1 == name).map fun e => d.entriesOf e.2.2

theorem pairs_entries {σ : Type} {acc acc' : σ}
    {step : σ → Bytes → Yaml.Node → Yaml.Node → Result σ} (h : d.pairs n what acc step = .ok acc') :
    (d.entriesOf n).foldlM (fun acc e => step acc e.1 e.2.1 e.2.2) acc = .ok acc' := by
  cases hn : d.document.resolve n with
  | mapping line entries =>
    simp only [pairs, hn] at h
    simp only [entriesOf, hn]
    clear hn
    induction entries generalizing acc with
    | nil => exact h
    | cons e rest ih =>
      obtain ⟨k, v⟩ := e
      cases k with
      | scalar line tag key =>
        obtain ⟨acc₁, hacc₁, h⟩ := bind_eq_ok_iff.mp h
        exact bind_eq_ok_iff.mpr ⟨acc₁, hacc₁, ih h⟩
      | _ => cases h
  | _ =>
    simp only [pairs, hn] at h
    cases h

theorem fields_nested (h : d.fields n what m = .ok m') :
    d.nested (d.field (d.document.size + 1)) (d.entriesOf n) m = .ok m' :=
  nested_eq_foldlM.trans (pairs_entries h)

def structsKey (d : Decoder) (tables : NameMap Field) (e : Entry) : Result (NameMap Field) :=
  (d.fields e.2.2 ("struct " ++ e.1) []).map fun children => tables.insert e.1 (.table children)

theorem fold_library {lib lib' : Library}
    (h : es.foldlM (fun lib e => d.libraryKey lib e.1 e.2.1 e.2.2) lib = .ok lib') :
    d.nested (d.field (d.document.size + 1)) (d.under "globals" es) lib.globals = .ok lib'.globals ∧
    (d.under "structs" es).foldlM d.structsKey lib.structs = .ok lib'.structs := by
  induction es generalizing lib with
  | nil =>
    cases h
    exact ⟨rfl, rfl⟩
  | cons e rest ih =>
    obtain ⟨lib₁, hlib₁, h⟩ := bind_eq_ok_iff.mp h
    obtain ⟨hglobals, hstructs⟩ := ih h
    rcases Library.libraryKey_cases hlib₁ with
      ⟨_, _, -, rfl, hg, hs⟩ | ⟨fields, hg, hfields, rfl⟩ | ⟨tables, hs, htables, rfl⟩
    · rw [under_cons_of_ne hg, under_cons_of_ne hs]
      exact ⟨hglobals, hstructs⟩
    · rw [← hg, under_cons_self, under_cons_of_ne (by rw [hg]; decide)]
      rw [← hg] at hglobals
      exact ⟨nested_append.mpr ⟨fields, fields_nested hfields, hglobals⟩, hstructs⟩
    · rw [← hs, under_cons_self, under_cons_of_ne (by rw [hs]; decide), foldlM_append]
      rw [← hs] at hstructs
      exact ⟨hglobals, bind_eq_ok_iff.mpr ⟨tables, pairs_entries htables, hstructs⟩⟩

theorem get?_structs (name : Bytes) (h : es.foldlM d.structsKey m = .ok m') :
    (∀ e, es.reverse.find? (fun e => e.1 == name) = some e → ∃ children,
      d.fields e.2.2 ("struct " ++ e.1) [] = .ok children ∧ m'.get? name = some (.table children)) ∧
    (es.reverse.find? (fun e => e.1 == name) = none → m'.get? name = m.get? name) := by
  induction es generalizing m with
  | nil =>
    cases h
    exact ⟨fun e he => (by cases he), fun _ => rfl⟩
  | cons e rest ih =>
    obtain ⟨m₁, hm₁, h⟩ := bind_eq_ok_iff.mp h
    obtain ⟨children, hchildren, rfl⟩ := map_eq_ok_iff.mp hm₁
    obtain ⟨hlater, hthis⟩ := ih h
    rw [reverse_cons, find?_append]
    cases hfind : rest.reverse.find? (fun e => e.1 == name) with
    | some e' => exact ⟨fun _ he => Option.some.inj he ▸ hlater e' hfind, fun he => (by cases he)⟩
    | none =>
      by_cases hname : e.1 = name
      · subst hname
        simp [hthis hfind, hchildren]
      · simp [hthis hfind, hname, get?_insert_of_ne (Ne.symm hname)]

theorem declarations_library {lib : Library} (h : d.library = .ok lib) (root : Option Bytes) :
    (∀ es, d.declarations root = some es → ∃ m, lib.fieldsOf root = some m ∧
      d.nested (d.field (d.document.size + 1)) es [] = .ok m) ∧
    (d.declarations root = none → lib.fieldsOf root = none) := by
  obtain ⟨_, hpairs, hclosed⟩ := bind_eq_ok_iff.mp h
  obtain ⟨rfl, -⟩ := Library.closed_eq_ok_iff.mp hclosed
  obtain ⟨hglobals, hstructs⟩ := fold_library (pairs_entries hpairs)
  cases root with
  | none =>
    exact ⟨fun es hes => ⟨_, rfl, Option.some.inj hes ▸ hglobals⟩, fun hnone => (by cases hnone)⟩
  | some name =>
    obtain ⟨hfound, hnone⟩ := get?_structs name hstructs
    constructor
    · intro es hes
      obtain ⟨e, hfind, rfl⟩ := Option.map_eq_some_iff.mp hes
      obtain ⟨children, hchildren, hget⟩ := hfound e hfind
      exact ⟨children, by rw [Library.fieldsOf, hget]; rfl, fields_nested hchildren⟩
    · intro hes
      rw [Library.fieldsOf, hnone (Option.map_eq_none_iff.mp hes)]
      rfl

/-- What a document declares and lasts is in its library, under the path and as the field that it is
declared as. Documents that declare the same fields in different orders have the same fields when
all of them last. -/
theorem library_keeps {lib : Library} (h : d.library = .ok lib) :
    (∀ root es, d.declarations root = some es → ∃ m, lib.fieldsOf root = some m ∧
      ∀ path g, d.Lasts es path g → Holds m path g) ∧
    ∀ (d' : Decoder) lib', d'.library = .ok lib' →
      (∀ root, Option.Rel (Rearranged d d') (d.declarations root) (d'.declarations root)) →
      (∀ root, ∀ es ∈ d.declarations root, d.Settled es) →
      (∀ root, ∀ es ∈ d'.declarations root, d'.Settled es) →
      lib'.globals = lib.globals ∧ lib'.structs = lib.structs := by
  refine ⟨fun root es hes => ?_, fun d' lib' h' hsame hsettled hsettled' => ?_⟩
  · obtain ⟨m, hm, hnested⟩ := (declarations_library h root).1 es hes
    exact ⟨m, hm, fun path g => holds_of_lasts hnested⟩
  have hfields : ∀ root, lib'.fieldsOf root = lib.fieldsOf root := by
    intro root
    have hroot := hsame root
    cases hes : d.declarations root with
    | none =>
      rw [hes] at hroot
      rw [(declarations_library h root).2 hes, (declarations_library h' root).2]
      generalize d'.declarations root = es' at hroot
      cases hroot
      rfl
    | some es =>
      cases hes' : d'.declarations root with
      | none =>
        rw [hes, hes'] at hroot
        cases hroot
      | some es' =>
        rw [hes, hes'] at hroot
        obtain ⟨m, hm, hnested⟩ := (declarations_library h root).1 es hes
        obtain ⟨m', hm', hnested'⟩ := (declarations_library h' root).1 es' hes'
        cases hroot with
        | some hrearranged =>
          rw [hm, hm', nested_unique hnested hnested' hrearranged.declares_iff
            (hsettled root es hes)
            (hsettled' root es' hes')]
  have hregular := (Library.regular_of_library h).1
  have hregular' := (Library.regular_of_library h').1
  refine ⟨Option.some.inj (hfields none), ?_⟩
  refine NameMap.ext_of_ascending hregular'.structs hregular.structs fun name => ?_
  -- Each shared table is a table, and so it is determined by its fields.
  have htable : ∀ lib : Library, lib.Regular → lib.structs.get? name =
      (lib.fieldsOf (some name)).map .table := by
    intro lib hlib
    cases hget : lib.structs.get? name with
    | none => simp [Library.fieldsOf, hget]
    | some f =>
      simp [Library.fieldsOf, hget, ← (hlib.bodies _ (NameMap.mem_of_get? hget)).2]
  rw [htable lib hregular, htable lib' hregular', hfields]

def ofGlobals (es : List Entry) : Decoder :=
  ⟨"globals.yml", .ofNode (.mapping 0 [(.text "globals", .mapping 0 (es.map Prod.snd))])⟩

def anything : Yaml.Node := .mapping 0 [(.text "any", .truth true)]

def dotted (name : Bytes) : Entry := (name, .text name, anything)

def nesting (name : Bytes) (e : Entry) : Entry := (name, .text name, .mapping 0 [e.2])

/-- Dotted names are kept in both orders. -/
theorem library_keeps_dotted : ∃ lib lib',
    (ofGlobals [dotted "a.b", dotted "a.c"]).library = .ok lib ∧
    (ofGlobals [dotted "a.c", dotted "a.b"]).library = .ok lib' ∧
    Holds lib.globals ["a", "b"] (.ofShape .any) ∧ lib'.globals = lib.globals := by
  obtain ⟨lib, lib', h, h'⟩ : ∃ lib lib',
      (ofGlobals [dotted "a.b", dotted "a.c"]).library = .ok lib ∧
      (ofGlobals [dotted "a.c", dotted "a.b"]).library = .ok lib' := ⟨_, _, rfl, rfl⟩
  have hsettled : ∀ (d : Decoder) first second, d.Settled [dotted first, dotted second] :=
    fun d _ _ => settled_of_flat (by rintro e (_ | ⟨_, _ | ⟨_, he⟩⟩) <;> first | rfl | cases he)
  refine ⟨lib, lib', h, h', ?_, ((library_keeps h).2 _ lib' h' ?_ ?_ ?_).1⟩
  · obtain ⟨m, hm, hlasts⟩ := (library_keeps h).1 none _ rfl
    rw [Option.some.inj hm]
    exact hlasts _ _ (hsettled _ _ _ _ _ (.own (e := dotted "a.b") (by simp)))
  · rintro (_ | name)
    · exact .some (.perm (.cons rfl rfl .nil (.cons rfl rfl .nil .nil)) (.swap ..))
    · exact .none
  · rintro (_ | name) es hes
    · exact Option.some.inj hes ▸ hsettled _ _ _
    · cases hes
  · rintro (_ | name) es hes
    · exact Option.some.inj hes ▸ hsettled _ _ _
    · cases hes

/-- A dotted name is lost when a later entry has nested fields under the same name, and not when the
entry comes first. -/
theorem library_loses_dotted : ∃ lib lib',
    (ofGlobals [dotted "a.b.c", nesting "a" (nesting "b" (dotted "d"))]).library = .ok lib ∧
    (ofGlobals [nesting "a" (nesting "b" (dotted "d")), dotted "a.b.c"]).library = .ok lib' ∧
    (Field.table lib.globals).look ["a", "b", "c"] = none ∧
    (Field.table lib'.globals).look ["a", "b", "c"] = some (.ofShape .any) :=
  ⟨_, _, rfl, rfl, rfl, rfl⟩

end Decoder

end LuaLint
