import Mathlib

/-!
Filling the bits below the highest one. A number is combined with itself shifted by one, then with
the result shifted by two, by four and so on; every round doubles how far each bit is spread.
-/

namespace WebKit.BitFilling

def fill : ℕ → ℕ → ℕ
  | 0, n => n
  | rounds + 1, n => fill rounds n ||| fill rounds n >>> 2 ^ rounds

theorem testBit_fill (rounds n i : ℕ) :
    (fill rounds n).testBit i ↔ ∃ j < 2 ^ rounds, n.testBit (i + j) := by
  induction rounds generalizing i with
  | zero =>
    constructor
    · exact fun h => ⟨0, Nat.one_pos, h⟩
    · intro ⟨j, hj, h⟩
      obtain rfl : j = 0 := Nat.lt_one_iff.mp hj
      exact h
  | succ rounds ih =>
    rw [fill, Nat.testBit_or, Nat.testBit_shiftRight, Bool.or_eq_true, ih, ih, Nat.pow_succ]
    constructor
    · rintro (⟨j, hj, h⟩ | ⟨j, hj, h⟩)
      · exact ⟨j, by omega, h⟩
      · refine ⟨2 ^ rounds + j, by omega, ?_⟩
        rwa [← Nat.add_assoc, Nat.add_comm i]
    · intro ⟨j, hj, h⟩
      by_cases hnear : j < 2 ^ rounds
      · exact Or.inl ⟨j, hnear, h⟩
      · refine Or.inr ⟨j - 2 ^ rounds, by omega, ?_⟩
        rwa [show 2 ^ rounds + i + (j - 2 ^ rounds) = i + j by omega]

/-- A number with not more bits than one can be spread is filled completely. -/
theorem fill_eq {rounds n : ℕ} (hn : n < 2 ^ 2 ^ rounds) : fill rounds n = 2 ^ n.size - 1 := by
  apply Nat.eq_of_testBit_eq
  intro i
  rw [Nat.testBit_two_pow_sub_one, Bool.eq_iff_iff, testBit_fill, decide_eq_true_iff]
  constructor
  · rintro ⟨j, -, h⟩
    have hle := Nat.ge_two_pow_of_testBit h
    have hsize : ¬n.size ≤ i + j := by
      rw [Nat.size_le]
      omega
    omega
  · intro hi
    have hex : ∃ m, i ≤ m ∧ n.testBit m := by
      by_contra hnone
      have hlt : n < 2 ^ i := by
        apply Nat.lt_pow_two_of_testBit
        intro m hm
        rw [Bool.eq_false_iff]
        exact fun hbit => hnone ⟨m, hm, hbit⟩
      have := Nat.size_le.mpr hlt
      omega
    obtain ⟨m, hm, hbit⟩ := hex
    refine ⟨m - i, ?_, by rwa [Nat.add_sub_cancel' hm]⟩
    have hlt : m < 2 ^ rounds := by
      by_contra hge
      have hpow : 2 ^ 2 ^ rounds ≤ 2 ^ m := Nat.pow_le_pow_right Nat.two_pos (by omega)
      have hle := Nat.ge_two_pow_of_testBit hbit
      omega
    omega

end WebKit.BitFilling
