import Mathlib

/-!
Rounding of machine words to multiples of a power of two. The masks of the code clear the low bits
of a word; the sum that is masked when rounding up may wrap, and the result is then zero.
-/

namespace WebKit.Alignment

def roundDown (bits divisor x : ℕ) : ℕ := x &&& (2 ^ bits - divisor)

def roundUp (bits divisor x : ℕ) : ℕ := roundDown bits divisor ((x + (divisor - 1)) % 2 ^ bits)

variable {bits k x : ℕ}

section

variable (hk : k ≤ bits)

include hk

theorem testBit_two_pow_sub_two_pow (i : ℕ) :
    (2 ^ bits - 2 ^ k).testBit i = (decide (k ≤ i) && decide (i < bits)) := by
  have hmul : 2 ^ bits - 2 ^ k = (2 ^ (bits - k) - 1) * 2 ^ k := by
    rw [Nat.sub_mul, one_mul, ← pow_add, Nat.sub_add_cancel hk]
  rw [hmul, Nat.testBit_mul_two_pow, Nat.testBit_two_pow_sub_one]
  by_cases hki : k ≤ i
  · have hiff : i - k < bits - k ↔ i < bits := by omega
    simp only [hki, hiff]
  · simp only [hki, decide_false, Bool.false_and]

/-- Masking subtracts the remainder. -/
theorem roundDown_eq (hx : x < 2 ^ bits) : roundDown bits (2 ^ k) x = x / 2 ^ k * 2 ^ k := by
  apply Nat.eq_of_testBit_eq
  intro i
  rw [roundDown, Nat.testBit_and, testBit_two_pow_sub_two_pow hk, Nat.testBit_mul_two_pow,
    Nat.testBit_div_two_pow]
  by_cases hki : k ≤ i
  · by_cases hi : i < bits
    · simp only [hki, hi, decide_true, Bool.true_and, Bool.and_true, Nat.sub_add_cancel]
    · have hzero : x.testBit i = false :=
        Nat.testBit_lt_two_pow (hx.trans_le (Nat.pow_le_pow_right Nat.two_pos (not_lt.mp hi)))
      simp only [hki, hi, hzero, decide_true, decide_false, Bool.and_false, Nat.sub_add_cancel]
  · simp only [hki, decide_false, Bool.false_and, Bool.and_false]

theorem roundDown_le (hx : x < 2 ^ bits) : roundDown bits (2 ^ k) x ≤ x := by
  rw [roundDown_eq hk hx]
  exact Nat.div_mul_le_self x _

theorem dvd_roundUp : 2 ^ k ∣ roundUp bits (2 ^ k) x := by
  rw [roundUp, roundDown_eq hk (Nat.mod_lt _ (Nat.two_pow_pos bits))]
  exact Nat.dvd_mul_left _ _

theorem roundUp_lt : roundUp bits (2 ^ k) x < 2 ^ bits :=
  (roundDown_le hk (Nat.mod_lt _ (Nat.two_pow_pos bits))).trans_lt (Nat.mod_lt _ (Nat.two_pow_pos bits))

section

variable (hsum : x + (2 ^ k - 1) < 2 ^ bits)

include hsum

theorem roundUp_eq : roundUp bits (2 ^ k) x = (x + (2 ^ k - 1)) / 2 ^ k * 2 ^ k := by
  rw [roundUp, Nat.mod_eq_of_lt hsum, roundDown_eq hk hsum]

/-- Without overflow the result is the least multiple that is not smaller. -/
theorem le_roundUp : x ≤ roundUp bits (2 ^ k) x := by
  have hlt := Nat.lt_div_mul_add (a := x + (2 ^ k - 1)) (Nat.two_pow_pos k)
  rw [roundUp, Nat.mod_eq_of_lt hsum, roundDown_eq hk hsum]
  omega

theorem roundUp_lt_add : roundUp bits (2 ^ k) x < x + 2 ^ k := by
  have hle := roundDown_le hk hsum
  have hpos := Nat.two_pow_pos k
  rw [roundUp, Nat.mod_eq_of_lt hsum]
  omega

theorem roundUp_le_of_dvd {y : ℕ} (hxy : x ≤ y) (hy : 2 ^ k ∣ y) : roundUp bits (2 ^ k) x ≤ y := by
  obtain ⟨m, rfl⟩ := hy
  obtain ⟨n, hn⟩ := dvd_roundUp (x := x) hk
  have hlt := roundUp_lt_add hk hsum
  rw [hn] at hlt ⊢
  have hmn : n < m + 1 := by
    apply Nat.lt_of_mul_lt_mul_left (a := 2 ^ k)
    rw [Nat.mul_add, mul_one]
    omega
  exact Nat.mul_le_mul_left _ (by omega)

end

end

/-- A power of two is rounded to the larger one. -/
theorem roundUp_two_pow {m : ℕ} (hk : k < bits) (hm : m < bits) :
    roundUp bits (2 ^ k) (2 ^ m) = 2 ^ max m k := by
  have hhalf : 2 ^ (bits - 1) + 2 ^ (bits - 1) = 2 ^ bits := by
    rw [← two_mul, ← pow_succ', Nat.sub_add_cancel (by omega)]
  have hpowK : 2 ^ k ≤ 2 ^ (bits - 1) := Nat.pow_le_pow_right Nat.two_pos (by omega)
  have hpowM : 2 ^ m ≤ 2 ^ (bits - 1) := Nat.pow_le_pow_right Nat.two_pos (by omega)
  have hpos' := Nat.two_pow_pos m
  have hsum : 2 ^ m + (2 ^ k - 1) < 2 ^ bits := by omega
  have hle := le_roundUp hk.le hsum
  rcases le_total k m with hkm | hmk
  · rw [max_eq_left hkm]
    exact le_antisymm (roundUp_le_of_dvd hk.le hsum le_rfl (pow_dvd_pow 2 hkm)) hle
  · rw [max_eq_right hmk]
    refine le_antisymm ?_ (Nat.le_of_dvd (hpos'.trans_le hle) (dvd_roundUp hk.le))
    exact roundUp_le_of_dvd hk.le hsum (Nat.pow_le_pow_right Nat.two_pos hmk) dvd_rfl

/-- When the sum wraps the result is zero. -/
theorem roundUp_eq_zero (hk : k ≤ bits) (hx : x < 2 ^ bits) (hsum : 2 ^ bits ≤ x + (2 ^ k - 1)) :
    roundUp bits (2 ^ k) x = 0 := by
  have hpow : 2 ^ k ≤ 2 ^ bits := Nat.pow_le_pow_right Nat.two_pos hk
  have hmod : (x + (2 ^ k - 1)) % 2 ^ bits = x + (2 ^ k - 1) - 2 ^ bits := by
    rw [Nat.mod_eq_sub_mod hsum, Nat.mod_eq_of_lt (by omega)]
  rw [roundUp, hmod, roundDown_eq hk (by omega), Nat.div_eq_of_lt (by omega), zero_mul]

end WebKit.Alignment
