import LuaLint.Text.NameMap

/-!
# Names in ascending order

Facts about dotted names and about maps from names: what a look-up finds after a change, and that
two maps with the same look-ups are the same list once their names ascend.

Main statements: `Bytes.split_join`, `NameMap.ext_of_ascending`.
-/

namespace LuaLint

open List

variable {sep : UInt8} {s : Bytes} {pieces : List Bytes}

/-! ## Order and segments -/

namespace Bytes

theorem before_iff_lt (a b : Bytes) : before a b = true ↔ a < b := by
  induction a generalizing b with
  | nil => cases b <;> simp [before]
  | cons x xs ih =>
    cases b with
    | nil => simp [before]
    | cons y ys =>
      rw [cons_lt_cons_iff, ← ih, before]
      grind

theorem lt_of_not_before {a b : Bytes} (hne : b ≠ a) (h : ¬ before a b = true) : b < a := by
  induction a generalizing b with
  | nil =>
    cases b with
    | nil => exact absurd rfl hne
    | cons y ys => simp [before] at h
  | cons x xs ih =>
    cases b with
    | nil => exact nil_lt_cons x xs
    | cons y ys =>
      rw [cons_lt_cons_iff]
      rw [before] at h
      grind

theorem split_ne_nil (sep : UInt8) (s : Bytes) : split sep s ≠ [] := by
  cases s with
  | nil => simp [split]
  | cons b rest =>
    unfold split
    split
    · exact cons_ne_nil _ _
    · split <;> exact cons_ne_nil _ _

theorem split_of_notMem (h : sep ∉ s) : split sep s = [s] := by
  induction s with
  | nil => rfl
  | cons b rest ih =>
    simp only [mem_cons, not_or] at h
    simp [split, ih h.2, Ne.symm h.1]

theorem split_append (h : sep ∉ s) (t : Bytes) : split sep (s ++ sep :: t) = s :: split sep t := by
  induction s with
  | nil => simp [split]
  | cons b rest ih =>
    simp only [mem_cons, not_or] at h
    simp [split, ih h.2, Ne.symm h.1]

/-- Pieces without the separator are found again. -/
theorem split_join (hne : pieces ≠ []) (h : ∀ p ∈ pieces, sep ∉ p) :
    split sep (join [sep] pieces) = pieces := by
  induction pieces with
  | nil => exact absurd rfl hne
  | cons p rest ih =>
    rw [forall_mem_cons] at h
    cases rest with
    | nil => simpa [join, intercalate] using split_of_notMem h.1
    | cons q more =>
      have hrest := ih (cons_ne_nil q more) h.2
      simp only [join, intercalate, intersperse, flatten_cons,
        singleton_append] at hrest ⊢
      rw [split_append h.1, hrest]

theorem join_append_singleton {sep : Bytes} (hne : pieces ≠ []) (last : Bytes) :
    join sep (pieces ++ [last]) = join sep pieces ++ sep ++ last := by
  induction pieces with
  | nil => exact absurd rfl hne
  | cons p rest ih =>
    cases rest with
    | nil => simp [join, intercalate]
    | cons q more =>
      have hrest := ih (cons_ne_nil q more)
      simp only [join, intercalate, cons_append, intersperse, flatten_cons] at hrest ⊢
      rw [hrest]
      simp only [append_assoc]

theorem notMem_of_mem_split {p : Bytes} (h : p ∈ split sep s) : sep ∉ p := by
  induction s generalizing p with
  | nil => simp_all [split]
  | cons b rest ih =>
    unfold split at h
    split at h
    · rcases mem_cons.mp h with rfl | hp
      · exact not_mem_nil
      · exact ih hp
    · rename_i hb
      split at h
      · rw [mem_singleton] at h
        simp [h, Ne.symm hb]
      · rename_i piece pieces heq
        rcases mem_cons.mp h with rfl | hp
        · have := ih (p := piece) (by rw [heq]; exact mem_cons_self ..)
          simp [this, Ne.symm hb]
        · exact ih (by rw [heq]; exact mem_cons_of_mem _ hp)

end Bytes

/-! ## Look-ups -/

namespace NameMap

variable {α : Type} {m m' : NameMap α} {name other : Bytes} {v w : α}

@[simp] theorem get?_nil : get? name ([] : NameMap α) = none := rfl

@[simp] theorem get?_cons {k : Bytes} :
    get? name ((k, v) :: m) = if k = name then some v else m.get? name := by
  simp [get?]

@[simp] theorem get?_insert_self : (m.insert name v).get? name = some v := by
  induction m with
  | nil => simp [insert]
  | cons e rest ih =>
    obtain ⟨k, u⟩ := e
    unfold insert
    split
    · simp
    · split
      · simp
      · rename_i hk _
        have hne : k ≠ name := by simpa using hk
        rw [get?_cons, if_neg hne, ih]

theorem get?_insert_of_ne (h : other ≠ name) : (m.insert name v).get? other = m.get? other := by
  induction m with
  | nil => simp [insert, Ne.symm h]
  | cons e rest ih =>
    obtain ⟨k, u⟩ := e
    unfold insert
    split
    · rename_i hk
      have hk' : k = name := by simpa using hk
      simp [hk', Ne.symm h]
    · split
      · simp [Ne.symm h]
      · simp [ih]

theorem get?_erase : (m.erase name).get? other = if other = name then none else m.get? other := by
  induction m with
  | nil => simp [erase]
  | cons e rest ih =>
    obtain ⟨k, u⟩ := e
    simp only [erase] at ih ⊢
    by_cases hk : k = name
    · subst hk
      by_cases ho : other = k
      · simpa [ho] using ih
      · simp [ih, ho, Ne.symm ho]
    · by_cases ho : other = name
      · simp [hk, ho] at ih ⊢
        exact ih
      · simp [hk, ih, ho]

theorem mem_of_get? (h : m.get? name = some v) : (name, v) ∈ m := by
  induction m with
  | nil => cases h
  | cons e rest ih =>
    obtain ⟨k, u⟩ := e
    rw [get?_cons] at h
    split at h
    · rename_i hk
      cases h
      simp [hk]
    · exact mem_cons_of_mem _ (ih h)

theorem get?_eq_none_iff : m.get? name = none ↔ name ∉ m.names := by
  induction m with
  | nil => simp [names]
  | cons e rest ih =>
    obtain ⟨k, u⟩ := e
    simp only [names] at ih
    by_cases hk : k = name
    · simp [names, hk]
    · simp [names, hk, Ne.symm hk, ih]

theorem insert_insert : (m.insert name v).insert name w = m.insert name w := by
  induction m with
  | nil => simp [insert]
  | cons e rest ih =>
    obtain ⟨k, u⟩ := e
    by_cases hk : k = name
    · simp [insert, hk]
    · by_cases hb : Bytes.before name k = true
      · simp [insert, hk, hb]
      · simp [insert, hk, hb, ih]

theorem mem_insert {e : Bytes × α} (h : e ∈ m.insert name v) : e = (name, v) ∨ e ∈ m := by
  induction m with
  | nil => simpa [insert] using h
  | cons e' rest ih =>
    obtain ⟨k, u⟩ := e'
    unfold insert at h
    split at h
    · rcases mem_cons.mp h with rfl | h
      · exact .inl rfl
      · exact .inr (mem_cons_of_mem _ h)
    · split at h
      · exact (mem_cons.mp h)
      · rcases mem_cons.mp h with rfl | h
        · exact .inr (mem_cons_self ..)
        · exact (ih h).imp id (mem_cons_of_mem _)

/-! ## Ascending names -/

/-- The names ascend, so that none occurs twice. -/
def Ascending (m : NameMap α) : Prop := m.Pairwise fun a b => a.1 < b.1

instance (m : NameMap α) : Decidable m.Ascending :=
  inferInstanceAs (Decidable (m.Pairwise fun a b => a.1 < b.1))

theorem ascending_nil : Ascending ([] : NameMap α) := List.Pairwise.nil

theorem ascending_cons {e : Bytes × α} :
    Ascending (e :: m) ↔ (∀ e' ∈ m, e.1 < e'.1) ∧ Ascending m := pairwise_cons

theorem ascending_append : Ascending (m ++ m') ↔
    Ascending m ∧ Ascending m' ∧ ∀ e ∈ m, ∀ e' ∈ m', e.1 < e'.1 := pairwise_append

theorem insert_eq_append (h : ∀ e ∈ m, e.1 < name) : m.insert name v = m ++ [(name, v)] := by
  induction m with
  | nil => rfl
  | cons e rest ih =>
    obtain ⟨k, u⟩ := e
    rw [forall_mem_cons] at h
    have hne : k ≠ name := fun hk => List.lt_irrefl _ (hk ▸ h.1)
    have hnb : ¬ Bytes.before name k = true := by
      rw [Bytes.before_iff_lt]
      exact List.lt_asymm h.1
    simp [insert, hne, hnb, ih h.2]

theorem Ascending.insert (h : m.Ascending) : (m.insert name v).Ascending := by
  induction m with
  | nil => simp [NameMap.insert, Ascending]
  | cons e rest ih =>
    obtain ⟨k, u⟩ := e
    rw [ascending_cons] at h
    unfold NameMap.insert
    split
    · rename_i hk
      have hk' : k = name := by simpa using hk
      exact ascending_cons.mpr ⟨fun e' he' => hk' ▸ h.1 e' he', h.2⟩
    · split
      · rename_i hb
        rw [Bytes.before_iff_lt] at hb
        refine ascending_cons.mpr ⟨?_, ascending_cons.mpr h⟩
        intro e' he'
        rcases mem_cons.mp he' with rfl | he'
        · exact hb
        · exact List.lt_trans hb (h.1 e' he')
      · rename_i hk hb
        refine ascending_cons.mpr ⟨?_, ih h.2⟩
        intro e' he'
        rcases mem_insert he' with rfl | he'
        · have hne : k ≠ name := by simpa using hk
          exact Bytes.lt_of_not_before hne hb
        · exact h.1 e' he'

theorem get?_eq_none_of_lt (h : ∀ e ∈ m, name < e.1) : m.get? name = none := by
  rw [get?_eq_none_iff]
  intro hmem
  obtain ⟨e, he, heq⟩ := mem_map.mp hmem
  exact List.lt_irrefl _ (heq ▸ h e he)

theorem get?_insertAll (h : m'.Ascending) :
    (m.insertAll m').get? name = (m'.get? name).or (m.get? name) := by
  unfold insertAll
  induction m' generalizing m with
  | nil => rfl
  | cons e rest ih =>
    obtain ⟨k, u⟩ := e
    rw [ascending_cons] at h
    rw [foldl_cons, ih h.2, get?_cons]
    by_cases hk : k = name
    · subst hk
      simp [get?_eq_none_of_lt h.1]
    · rw [if_neg hk, get?_insert_of_ne (Ne.symm hk)]

theorem Ascending.erase (h : m.Ascending) : (m.erase name).Ascending :=
  List.Pairwise.sublist filter_sublist h

/-- Ascending maps with the same look-ups are equal. -/
theorem ext_of_ascending (h : m.Ascending) (h' : m'.Ascending)
    (hget : ∀ name, m.get? name = m'.get? name) : m = m' := by
  induction m generalizing m' with
  | nil =>
    cases m' with
    | nil => rfl
    | cons e _ =>
      obtain ⟨k, u⟩ := e
      simpa using hget k
  | cons e rest ih =>
    obtain ⟨k, u⟩ := e
    cases m' with
    | nil => simpa using hget k
    | cons e' rest' =>
      obtain ⟨k', u'⟩ := e'
      rw [ascending_cons] at h h'
      -- The first names agree: each of them is found in the other map, and nothing precedes them.
      have hk : k = k' := by
        refine Classical.byContradiction fun hne => ?_
        have h₁ := hget k
        have h₂ := hget k'
        simp only [get?_cons, if_true, if_neg hne, if_neg (Ne.symm hne)] at h₁ h₂
        exact List.lt_asymm (h'.1 _ (mem_of_get? h₁.symm)) (h.1 _ (mem_of_get? h₂))
      subst hk
      have hu := hget k
      simp only [get?_cons, if_true, Option.some.injEq] at hu
      rw [hu, ih h.2 h'.2]
      intro name
      have hn := hget name
      by_cases hname : k = name
      · subst hname
        rw [get?_eq_none_of_lt h.1, get?_eq_none_of_lt h'.1]
      · simpa [hname] using hn

end NameMap

end LuaLint
