import Mathlib

/-!
Linear probing. From a start the slots of a ring are visited one after the other until the first
one at which the search stops. If there is such a slot at all it is reached in less than one turn.
-/

namespace WebKit.LinearProbing

structure Reaches (stop : ℕ → Prop) (size start steps : ℕ) : Prop where
  lt : steps < size
  stops : stop ((start + steps) % size)
  before : ∀ earlier < steps, ¬stop ((start + earlier) % size)

variable {stop : ℕ → Prop} {size : ℕ}

/-- Every slot is visited in the first turn. -/
theorem exists_visited {slot : ℕ} (hslot : slot < size) (start : ℕ) :
    ∃ steps < size, (start + steps) % size = slot := by
  have hstart : start % size < size := Nat.mod_lt _ (by omega)
  by_cases hbehind : start % size ≤ slot
  · refine ⟨slot - start % size, by omega, ?_⟩
    rw [Nat.add_mod, Nat.mod_eq_of_lt (show slot - start % size < size by omega),
      Nat.add_sub_cancel' hbehind, Nat.mod_eq_of_lt hslot]
  · refine ⟨slot + size - start % size, by omega, ?_⟩
    rw [Nat.add_mod, Nat.mod_eq_of_lt (show slot + size - start % size < size by omega),
      Nat.add_sub_cancel' (by omega), Nat.add_mod_right, Nat.mod_eq_of_lt hslot]

theorem exists_reaches {slot : ℕ} (hslot : slot < size) (hstop : stop slot) (start : ℕ) :
    ∃ steps, Reaches stop size start steps := by
  classical
  have hex : ∃ steps, steps < size ∧ stop ((start + steps) % size) := by
    obtain ⟨steps, hlt, heq⟩ := exists_visited hslot start
    exact ⟨steps, hlt, heq ▸ hstop⟩
  obtain ⟨hlt, hstops⟩ := Nat.find_spec hex
  refine ⟨Nat.find hex, hlt, hstops, ?_⟩
  intro earlier hearlier hearlierStops
  exact Nat.find_min hex hearlier ⟨by omega, hearlierStops⟩

end WebKit.LinearProbing
