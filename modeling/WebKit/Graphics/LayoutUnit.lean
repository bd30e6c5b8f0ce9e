import Mathlib

/-!
Lengths of the layout in units of one sixty-fourth. A product and a quotient are computed with 64 bits,
truncated toward zero and bounded to 32 bits, and a sum saturates. The remainder of a division is
truncated as well, so that it completes the product only where neither of them loses a fraction.
-/

namespace WebKit.Graphics

def kFixedPointDenominator : ℤ := 64

def intMaxForLayoutUnit : ℤ := (2 ^ 31 - 1 : ℤ).tdiv kFixedPointDenominator

def intMinForLayoutUnit : ℤ := (-2 ^ 31 : ℤ).tdiv kFixedPointDenominator

def toInt32 (x : ℤ) : ℤ := (x + 2 ^ 31) % 2 ^ 32 - 2 ^ 31

abbrev InRange (x : ℤ) : Prop := -2 ^ 31 ≤ x ∧ x < 2 ^ 31

@[ext]
structure LayoutUnit where
  rawValue : ℤ
  inRange : InRange rawValue
  deriving DecidableEq

namespace LayoutUnit

def setRawValue (value : ℤ) : LayoutUnit := ⟨toInt32 value, by unfold toInt32; omega⟩

def setValue (value : ℤ) : LayoutUnit :=
  if value > intMaxForLayoutUnit then setRawValue (2 ^ 31 - 1)
  else if value < intMinForLayoutUnit then setRawValue (-2 ^ 31)
  else setRawValue (value * kFixedPointDenominator)

def clampTo (value : ℤ) : ℤ :=
  if value ≥ 2 ^ 31 - 1 then 2 ^ 31 - 1 else if value ≤ -2 ^ 31 then -2 ^ 31 else value

def signsDiffer (x y : ℤ) : Bool := decide (x < 0) != decide (y < 0)

def saturatedAddition (x y : ℤ) : ℤ :=
  let result := toInt32 (x + y)
  if !signsDiffer x y && signsDiffer result x then toInt32 (2 ^ 31 - 1 + (decide (x < 0)).toNat)
  else result

variable (a b : LayoutUnit)

def toInt : ℤ := a.rawValue.tdiv kFixedPointDenominator

def boundedMultiply : LayoutUnit :=
  let result := (a.rawValue * b.rawValue).tdiv kFixedPointDenominator
  let high := toInt32 (result >>> (32 : ℕ))
  let low := toInt32 result
  let saturated : ℤ := (signsDiffer a.rawValue b.rawValue).toNat + (2 ^ 31 - 1)
  setRawValue (if high ≠ low >>> (31 : ℕ) then saturated else result)

instance : Mul LayoutUnit := ⟨boundedMultiply⟩

instance : Div LayoutUnit :=
  ⟨fun a b => setRawValue (clampTo ((kFixedPointDenominator * a.rawValue).tdiv b.rawValue))⟩

instance : Add LayoutUnit := ⟨fun a b => setRawValue (saturatedAddition a.rawValue b.rawValue)⟩

def intMod : LayoutUnit := setRawValue (a.rawValue.tmod b.rawValue)

instance : Mod LayoutUnit := ⟨fun a b =>
  setRawValue (((kFixedPointDenominator * a.rawValue).tmod b.rawValue).tdiv kFixedPointDenominator)⟩

def bounded (x : ℤ) : ℤ := max (-2 ^ 31) (min (2 ^ 31 - 1) x)

section Operators

variable {a b} {x y : ℤ}

theorem rawValue_setRawValue (h : InRange x) : (setRawValue x).rawValue = x := by
  change toInt32 x = x
  unfold toInt32
  omega

theorem tdiv_sixtyFour (x : ℤ) : x.tdiv 64 = if 0 ≤ x then x / 64 else -(-x / 64) := by
  rw [Int.tdiv_eq_ediv, show Int.sign 64 = 1 from rfl]
  split_ifs <;> omega

/-- A quotient is bounded before it is stored. -/
theorem rawValue_div : (a / b).rawValue = bounded ((64 * a.rawValue).tdiv b.rawValue) := by
  change toInt32 (clampTo ((64 * a.rawValue).tdiv b.rawValue)) = _
  unfold toInt32 clampTo bounded
  split_ifs <;> omega

/-- The high half of a product is the sign of its low half exactly where the product fits. -/
theorem rawValue_mul : (a * b).rawValue = bounded ((a.rawValue * b.rawValue).tdiv 64) := by
  obtain ⟨⟨ha, ha'⟩, ⟨hb, hb'⟩⟩ := And.intro a.inRange b.inRange
  change (boundedMultiply a b).rawValue = _
  simp only [boundedMultiply, setRawValue, kFixedPointDenominator]
  have hsign : if signsDiffer a.rawValue b.rawValue then a.rawValue * b.rawValue ≤ 0
      else 0 ≤ a.rawValue * b.rawValue := by
    rcases Int.lt_or_le a.rawValue 0 with ha | ha <;> rcases Int.lt_or_le b.rawValue 0 with hb | hb
    · simp only [signsDiffer, ha, hb]
      exact mul_nonneg_of_nonpos_of_nonpos ha.le hb.le
    · simp only [signsDiffer, ha, hb.not_gt]
      exact mul_nonpos_of_nonpos_of_nonneg ha.le hb
    · simp only [signsDiffer, ha.not_gt, hb]
      exact mul_nonpos_of_nonneg_of_nonpos ha hb.le
    · simp only [signsDiffer, ha.not_gt, hb.not_gt]
      exact mul_nonneg ha hb
  have hsize : -2 ^ 62 ≤ a.rawValue * b.rawValue ∧ a.rawValue * b.rawValue ≤ 2 ^ 62 := by
    constructor <;> nlinarith
  simp only [tdiv_sixtyFour, Int.shiftRight_eq_div_pow]
  unfold toInt32 bounded
  cases hdiffer : signsDiffer a.rawValue b.rawValue with
  | false =>
    rw [hdiffer, if_neg nofun] at hsign
    split_ifs <;> simp at * <;> omega
  | true =>
    rw [hdiffer, if_pos rfl] at hsign
    split_ifs <;> simp at * <;> omega

theorem rawValue_add (h : InRange (a.rawValue + b.rawValue)) :
    (a + b).rawValue = a.rawValue + b.rawValue := by
  have hsum : toInt32 (a.rawValue + b.rawValue) = a.rawValue + b.rawValue :=
    rawValue_setRawValue h
  change toInt32 (saturatedAddition a.rawValue b.rawValue) = _
  have hsame : (!signsDiffer a.rawValue b.rawValue &&
      signsDiffer (a.rawValue + b.rawValue) a.rawValue) = false := by
    simp only [signsDiffer, Bool.and_eq_false_iff]
    grind
  rw [saturatedAddition, hsum, hsame, if_neg nofun, hsum]

/-- A remainder lies between zero and what is divided. -/
theorem tmod_between (x y : ℤ) :
    0 ≤ x ∧ 0 ≤ x.tmod y ∧ x.tmod y ≤ x ∨ x ≤ 0 ∧ x ≤ x.tmod y ∧ x.tmod y ≤ 0 := by
  have habs := Int.natAbs_tmod x y
  have hle := Nat.mod_le x.natAbs y.natAbs
  rcases le_total 0 x with hx | hx
  · have hnonneg := Int.tmod_nonneg y hx
    omega
  · have hnonneg := Int.tmod_nonneg y (Int.neg_nonneg_of_nonpos hx)
    rw [Int.neg_tmod] at hnonneg
    omega

theorem tdiv_tdiv_sixtyFour (x y : ℤ) : ((64 * x).tdiv y).tdiv 64 = x.tdiv y := by
  have hnat (m n : ℕ) : ((64 * (m : ℤ)).tdiv n).tdiv 64 = (m : ℤ).tdiv n := by
    have hdiv : 64 * m / n / 64 = m / n := by
      rw [Nat.div_div_eq_div_mul, mul_comm n, Nat.mul_div_mul_left _ _ (by decide)]
    exact congrArg Nat.cast hdiv
  obtain ⟨m, rfl | rfl⟩ := x.eq_nat_or_neg <;> obtain ⟨n, rfl | rfl⟩ := y.eq_nat_or_neg <;>
    simp only [Int.mul_neg, Int.neg_tdiv, Int.tdiv_neg, hnat]

theorem bounded_eq (h : InRange x) : bounded x = x := by
  unfold bounded
  omega

/-- What is lost when the parts of a number are divided. -/
theorem tdiv_add_tdiv {z : ℤ} (hz : InRange z) (hparts : x + y = 64 * z)
    (hsign : 0 ≤ 64 * z ∧ 0 ≤ y ∧ y ≤ 64 * z ∨ 64 * z ≤ 0 ∧ 64 * z ≤ y ∧ y ≤ 0) :
    InRange (x.tdiv 64) ∧ InRange (y.tdiv 64) ∧ InRange (x.tdiv 64 + y.tdiv 64) ∧
      (z = x.tdiv 64 + y.tdiv 64 ↔ 64 ∣ y) := by
  rw [tdiv_sixtyFour, tdiv_sixtyFour]
  split_ifs <;> omega

variable (h : InRange ((64 * a.rawValue).tdiv b.rawValue))
include h

theorem rawValue_div_of_inRange : (a / b).rawValue = (64 * a.rawValue).tdiv b.rawValue := by
  rw [rawValue_div, bounded_eq h]

/-- The product and the remainder give the dividend back where neither of them loses a fraction. -/
theorem eq_div_mul_add_mod_iff : a = a / b * b + a % b ↔ 64 ∣ (64 * a.rawValue).tmod b.rawValue := by
  obtain ⟨hp, hr, hsum, hiff⟩ := tdiv_add_tdiv a.inRange
    (Int.tdiv_mul_add_tmod (64 * a.rawValue) b.rawValue) (tmod_between _ _)
  have hproduct : (a / b * b).rawValue = ((64 * a.rawValue).tdiv b.rawValue * b.rawValue).tdiv 64 := by
    rw [rawValue_mul, rawValue_div_of_inRange h, bounded_eq hp]
  have hrest : (a % b).rawValue = ((64 * a.rawValue).tmod b.rawValue).tdiv 64 :=
    rawValue_setRawValue hr
  rw [LayoutUnit.ext_iff, rawValue_add (by rw [hproduct, hrest]; exact hsum), hproduct, hrest, hiff]

/-- No fraction is lost when the quotient is converted to an integer. -/
theorem eq_setValue_mul_add_intMod : a = setValue (a / b).toInt * b + intMod a b := by
  have hrng := a.inRange
  have hbetween := tmod_between a.rawValue b.rawValue
  have hparts := Int.tdiv_mul_add_tmod a.rawValue b.rawValue
  have hquotient : (a / b).toInt = a.rawValue.tdiv b.rawValue := by
    rw [toInt, rawValue_div_of_inRange h]
    exact tdiv_tdiv_sixtyFour _ _
  have hsmall : InRange (a.rawValue.tdiv b.rawValue * 64) := by
    rw [← tdiv_tdiv_sixtyFour, tdiv_sixtyFour]
    split_ifs <;> omega
  have hval : (setValue (a / b).toInt).rawValue = a.rawValue.tdiv b.rawValue * 64 := by
    have hmax : intMaxForLayoutUnit = 33554431 := rfl
    have hmin : intMinForLayoutUnit = -33554432 := rfl
    rw [hquotient, setValue, if_neg (by omega), if_neg (by omega)]
    exact rawValue_setRawValue hsmall
  have hproduct : (setValue (a / b).toInt * b).rawValue = a.rawValue.tdiv b.rawValue * b.rawValue := by
    rw [rawValue_mul, hval, Int.mul_right_comm, Int.mul_tdiv_cancel _ (by decide), bounded_eq]
    omega
  have hrest : (intMod a b).rawValue = a.rawValue.tmod b.rawValue := rawValue_setRawValue (by omega)
  rw [LayoutUnit.ext_iff, rawValue_add (by rw [hproduct, hrest, hparts]; exact hrng), hproduct, hrest,
    hparts]

end Operators

/-- Products and quotients are truncated and bounded. Where the quotient does not saturate, it gives
the dividend back, with the remainder and as an integer, exactly if the remainder is a number of units. -/
theorem div_mul_add_mod_iff :
    ((b.rawValue ≠ 0 → InRange ((64 * a.rawValue).tdiv b.rawValue) →
      a = a / b * b + a % b ∧ a = setValue (a / b).toInt * b + intMod a b) ∧
    (a * b).rawValue = bounded ((a.rawValue * b.rawValue).tdiv 64) ∧
    (b.rawValue ≠ 0 → (a / b).rawValue = bounded ((64 * a.rawValue).tdiv b.rawValue))) ↔
      (b.rawValue ≠ 0 → InRange ((64 * a.rawValue).tdiv b.rawValue) →
        64 ∣ (64 * a.rawValue).tmod b.rawValue) := by
  rw [and_iff_left ⟨rawValue_mul, fun _ => rawValue_div⟩]
  refine forall_congr' fun _ => forall_congr' fun h => ?_
  rw [and_iff_left (eq_setValue_mul_add_intMod h)]
  exact eq_div_mul_add_mod_iff h

/-- One unit divided by three: the quotient is 21 and the remainder less than a unit. -/
theorem one_ne_div_mul_add_mod :
    let a := setRawValue 1
    let b := setRawValue 3
    b.rawValue ≠ 0 ∧ InRange ((64 * a.rawValue).tdiv b.rawValue) ∧ ¬a = a / b * b + a % b := by
  decide

end LayoutUnit

end WebKit.Graphics
