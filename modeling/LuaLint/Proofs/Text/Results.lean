import Mathlib.Data.List.Basic

/-!
# Results

Computations that may fail, and statements about what they return. A run on a fixed input is
evaluated inside of an option, where a decision procedure can see it.
-/

namespace LuaLint

variable {ε ε' α β : Type} {x : Except ε α}

theorem bind_eq_ok_iff {f : α → Except ε β} {b : β} :
    x.bind f = .ok b ↔ ∃ a, x = .ok a ∧ f a = .ok b := by
  cases x <;> simp [Except.bind]

theorem map_eq_ok_iff {f : α → β} {b : β} : x.map f = .ok b ↔ ∃ a, x = .ok a ∧ f a = b := by
  cases x <;> simp [Except.map]

theorem mapError_eq_ok_iff {f : ε → ε'} {a : α} : x.mapError f = .ok a ↔ x = .ok a := by
  cases x with
  | error e => exact iff_of_false (fun h => by cases h) fun h => by cases h
  | ok b => exact ⟨fun h => by cases h; rfl, fun h => by cases h; rfl⟩

theorem toOption_eq_some_iff {a : α} : x.toOption = some a ↔ x = .ok a := by
  cases x <;> simp [Except.toOption]

/-- The error of a computation that fails. -/
def failure? : Except ε α → Option ε
  | .error e => some e
  | .ok _ => none

theorem failure?_eq_some_iff {e : ε} : failure? x = some e ↔ x = .error e := by
  cases x <;> simp [failure?]

/-! ## Results with properties -/

variable {P P' Q : α → Prop}

theorem exists_ok (h : ∃ a ∈ x.toOption, P a) : ∃ a, x = .ok a ∧ P a := by
  obtain ⟨a, ha, hP⟩ := h
  exact ⟨a, toOption_eq_some_iff.mp ha, hP⟩

/-- What a run returns has a property that is evaluated, and another one that follows. -/
theorem exists_ok_and (h : ∃ a ∈ x.toOption, P a) (hQ : ∀ a, x = .ok a → P a → Q a) :
    ∃ a, x = .ok a ∧ P a ∧ Q a := by
  obtain ⟨a, hx, hP⟩ := exists_ok h
  exact ⟨a, hx, hP, hQ a hx hP⟩

theorem exists_ok_and_and (h : ∃ a ∈ x.toOption, P a ∧ P' a)
    (hQ : ∀ a, x = .ok a → P a ∧ P' a → Q a) : ∃ a, x = .ok a ∧ P a ∧ P' a ∧ Q a := by
  obtain ⟨a, hx, hP, hP'⟩ := exists_ok h
  exact ⟨a, hx, hP, hP', hQ a hx ⟨hP, hP'⟩⟩

end LuaLint
