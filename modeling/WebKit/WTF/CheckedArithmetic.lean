import Mathlib

/-!
The overflow-reporting operations of wtf/CheckedArithmetic.h on signed operands.
A `false` return leaves the result alone and is modelled by `none`.
-/
namespace WebKit.CheckedArithmetic

variable (bits : ℕ)

def signedMin : ℤ := -2 ^ (bits - 1)

def signedMax : ℤ := 2 ^ (bits - 1) - 1

abbrev InSigned (bits : ℕ) (x : ℤ) : Prop := signedMin bits ≤ x ∧ x ≤ signedMax bits

variable (lhs rhs : ℤ)

def signsMatch : Bool := decide (0 ≤ lhs) == decide (0 ≤ rhs)

def safeAdd : Option ℤ :=
  if signsMatch lhs rhs then
    if lhs ≥ 0 then
      if signedMax bits - rhs < lhs then none else some (lhs + rhs)
    else
      let temp := lhs - signedMin bits
      if rhs < -temp then none else some (lhs + rhs)
  else
    some (lhs + rhs)

def safeSub : Option ℤ :=
  if !signsMatch lhs rhs then
    if lhs ≥ 0 then
      if lhs > signedMax bits + rhs then none else some (lhs - rhs)
    else
      if rhs > signedMax bits + lhs then none else some (lhs - rhs)
  else
    some (lhs - rhs)

def safeMultiply : Option ℤ :=
  if signsMatch lhs rhs then
    if lhs ≥ 0 then
      if lhs ≠ 0 ∧ (signedMax bits).tdiv lhs < rhs then none else some (lhs * rhs)
    else
      if lhs = signedMin bits ∨ rhs = signedMin bits then none
      else if (signedMax bits).tdiv (-lhs) < -rhs then none
      else some (lhs * rhs)
  else
    if lhs < 0 then
      if rhs ≠ 0 ∧ lhs < (signedMin bits).tdiv rhs then none else some (lhs * rhs)
    else
      if lhs ≠ 0 ∧ rhs < (signedMin bits).tdiv lhs then none else some (lhs * rhs)

variable {bits : ℕ} {lhs rhs : ℤ}

theorem signedMin_neg (bits : ℕ) : signedMin bits < 0 := by
  unfold signedMin
  simp

theorem signedMax_eq (bits : ℕ) : signedMax bits = -signedMin bits - 1 := by
  simp [signedMin, signedMax]

theorem InSigned.zero (bits : ℕ) : InSigned bits 0 := by
  have hmin := signedMin_neg bits
  have hmax := signedMax_eq bits
  constructor <;> omega

/-- Addition reports overflow exactly when the sum is not a value of the type. -/
theorem safeAdd_eq (hl : InSigned bits lhs) (hr : InSigned bits rhs) :
    safeAdd bits lhs rhs = if InSigned bits (lhs + rhs) then some (lhs + rhs) else none := by
  simp only [safeAdd, signsMatch, beq_iff_eq, decide_eq_decide]
  split_ifs <;> first | rfl | omega

/-- Subtraction also reports overflow when the difference is the least value of the type. -/
theorem safeSub_eq (hl : InSigned bits lhs) (hr : InSigned bits rhs) : safeSub bits lhs rhs =
      if signedMin bits < lhs - rhs ∧ lhs - rhs ≤ signedMax bits then some (lhs - rhs)
      else none := by
  have hmax := signedMax_eq bits
  simp only [safeSub, signsMatch, Bool.not_eq_true', beq_eq_false_iff_ne, ne_eq, decide_eq_decide]
  split_ifs <;> first | rfl | omega

/-- Multiplication by a positive factor reports overflow exactly when the product is not a
value of the type. -/
theorem safeMultiply_eq_of_pos (bits : ℕ) (lhs : ℤ) (hr : 0 < rhs) : safeMultiply bits lhs rhs =
      if InSigned bits (lhs * rhs) then some (lhs * rhs) else none := by
  have hmin := signedMin_neg bits
  have hmax := signedMax_eq bits
  rcases lt_trichotomy lhs 0 with hl | rfl | hl
  · have hprod : lhs * rhs < 0 := mul_neg_of_neg_of_pos hl hr
    have hover : lhs < (signedMin bits).tdiv rhs ↔ lhs * rhs < signedMin bits := by
      have hneg : (signedMin bits).tdiv rhs = -(-signedMin bits / rhs) := by
        rw [← Int.tdiv_eq_ediv_of_nonneg (by omega), Int.neg_tdiv, neg_neg]
      rw [hneg, lt_neg, Int.ediv_lt_iff_lt_mul hr]
      constructor <;> intro h <;> linarith
    have hmatch : signsMatch lhs rhs = false := by
      simp [signsMatch, hl.not_ge, hr.le]
    simp only [safeMultiply, hmatch, Bool.false_eq_true, if_false, if_pos hl, hover]
    split_ifs <;> first | rfl | omega
  · simp [safeMultiply, signsMatch, hr.le, InSigned.zero]
  · have hprod : 0 < lhs * rhs := mul_pos hl hr
    have hover : (signedMax bits).tdiv lhs < rhs ↔ signedMax bits < lhs * rhs := by
      rw [Int.tdiv_eq_ediv_of_nonneg (by omega), Int.ediv_lt_iff_lt_mul hl, mul_comm]
    have hmatch : signsMatch lhs rhs = true := by simp [signsMatch, hl.le, hr.le]
    simp only [safeMultiply, hmatch, if_true, if_pos hl.le, ge_iff_le, hover]
    split_ifs <;> first | rfl | omega

theorem safeMultiply_zero (bits : ℕ) (lhs : ℤ) : safeMultiply bits lhs 0 = some 0 := by
  have hmin := signedMin_neg bits
  have hmax := signedMax_eq bits
  rcases lt_trichotomy lhs 0 with hl | rfl | hl
  · simp [safeMultiply, signsMatch, hl, hl.not_ge]
  · simp [safeMultiply, signsMatch]
  · have hnonneg : ¬ (signedMax bits).tdiv lhs < 0 :=
      (Int.tdiv_nonneg (by omega) hl.le).not_gt
    simp [safeMultiply, signsMatch, hl.le, hnonneg]

/-- A negative factor: the product is compared with the bound on its side of zero. -/
theorem safeMultiply_eq_of_neg (hl : InSigned bits lhs) (hr : InSigned bits rhs) (hneg : rhs < 0) :
    safeMultiply bits lhs rhs =
      if InSigned bits (lhs * rhs) then some (lhs * rhs) else none := by
  have hmin := signedMin_neg bits
  have hmax := signedMax_eq bits
  rcases lt_or_ge lhs 0 with hlneg | hlnonneg
  · have hprod : 0 < lhs * rhs := mul_pos_of_neg_of_neg hlneg hneg
    have hmatch : signsMatch lhs rhs = true := by simp [signsMatch, hlneg.not_ge, hneg.not_ge]
    have hover : (signedMax bits).tdiv (-lhs) < -rhs ↔ signedMax bits < lhs * rhs := by
      rw [Int.tdiv_eq_ediv_of_nonneg (by omega), Int.ediv_lt_iff_lt_mul (by omega), neg_mul_neg,
        mul_comm]
    have hleast : lhs = signedMin bits ∨ rhs = signedMin bits → signedMax bits < lhs * rhs := by
      rintro (rfl | rfl) <;> nlinarith
    simp only [safeMultiply, hmatch, if_true, ge_iff_le, if_neg hlneg.not_ge, hover]
    split_ifs <;> first | rfl | omega
  · have hmatch : signsMatch lhs rhs = false := by simp [signsMatch, hlnonneg, hneg.not_ge]
    have hprod : lhs * rhs ≤ 0 := mul_nonpos_of_nonneg_of_nonpos hlnonneg hneg.le
    have hover : lhs ≠ 0 ∧ rhs < (signedMin bits).tdiv lhs ↔ lhs * rhs < signedMin bits := by
      rcases hlnonneg.eq_or_lt with rfl | hpos
      · simp [hmin.not_gt]
      · have heq : (signedMin bits).tdiv lhs = -(-signedMin bits / lhs) := by
          rw [← Int.tdiv_eq_ediv_of_nonneg (by omega), Int.neg_tdiv, neg_neg]
        rw [heq, lt_neg, Int.ediv_lt_iff_lt_mul hpos, neg_mul, neg_lt_neg_iff, mul_comm]
        exact and_iff_right hpos.ne'
    simp only [safeMultiply, hmatch, Bool.false_eq_true, if_false, if_neg hlnonneg.not_gt, hover]
    split_ifs <;> first | rfl | omega

/-- Multiplication reports overflow exactly when the product is not a value of the type. -/
theorem safeMultiply_eq (hl : InSigned bits lhs) (hr : InSigned bits rhs) :
    safeMultiply bits lhs rhs =
      if InSigned bits (lhs * rhs) then some (lhs * rhs) else none := by
  rcases lt_trichotomy rhs 0 with hneg | rfl | hpos
  · exact safeMultiply_eq_of_neg hl hr hneg
  · rw [safeMultiply_zero, mul_zero, if_pos (InSigned.zero bits)]
  · exact safeMultiply_eq_of_pos bits lhs hpos

end WebKit.CheckedArithmetic
