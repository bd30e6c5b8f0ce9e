import WebKit.B3.Value
import WebKit.WTF.CheckedArithmetic

/-!
The ranges of integer values that strength reduction uses to drop overflow checks. A
range is computed backwards from a value through at most five opcodes. The transfer
functions of the opcodes follow IntRange in B3ReduceStrength.cpp; a shift of a C++
integer by more than its width takes the amount modulo the width, as the shifts of the
machine do.
-/

namespace WebKit.B3

open CheckedArithmetic

structure IntRange where
  min : ℤ
  max : ℤ
  deriving DecidableEq, Repr

variable (w : Width)

def staticCast (x : ℤ) : ℤ := x.bmod (2 ^ w.bits)

def overflows (operation : ℕ → ℤ → ℤ → Option ℤ) (left right : ℤ) : Bool :=
  !(decide (InSigned w.bits left) && decide (InSigned w.bits right) &&
    (operation w.bits left right).isSome)

def sumOverflows : ℤ → ℤ → Bool := overflows w safeAdd

def differenceOverflows : ℤ → ℤ → Bool := overflows w safeSub

def productOverflows : ℤ → ℤ → Bool := overflows w safeMultiply

namespace IntRange

variable (w : Width)

def top : IntRange := ⟨signedMin w.bits, signedMax w.bits⟩

def rangeForMask (mask : ℤ) : IntRange :=
  if mask + 1 = 0 then top w else ⟨0, mask⟩

def rangeForZShr (shiftAmount : BitVec 32) : IntRange :=
  rangeForMask w (staticCast w ((2 ^ w.bits - 1) / 2 ^ (shiftAmount.toNat % w.bits)))

def couldOverflow (overflows : ℤ → ℤ → Bool) (range other : IntRange) : Bool :=
  overflows range.min other.min || overflows range.min other.max ||
    overflows range.max other.min || overflows range.max other.max

def couldOverflowAdd : IntRange → IntRange → Bool := couldOverflow (sumOverflows w)

def couldOverflowSub : IntRange → IntRange → Bool :=
  couldOverflow (differenceOverflows w)

def couldOverflowMul : IntRange → IntRange → Bool := couldOverflow (productOverflows w)

variable (range : IntRange)

def shl (shiftAmount : BitVec 32) : IntRange :=
  let count := shiftAmount.toNat % w.bits
  let newMin := staticCast w (staticCast w range.min * 2 ^ count)
  let newMax := staticCast w (staticCast w range.max * 2 ^ count)
  ⟨if newMin / 2 ^ count ≠ staticCast w range.min then signedMin w.bits else newMin,
    if newMax / 2 ^ count ≠ staticCast w range.max then signedMax w.bits else newMax⟩

def sShr (shiftAmount : BitVec 32) : IntRange :=
  ⟨staticCast w range.min / 2 ^ (shiftAmount.toNat % w.bits),
    staticCast w range.max / 2 ^ (shiftAmount.toNat % w.bits)⟩

def zShr (shiftAmount : BitVec 32) : IntRange :=
  if shiftAmount = 0 then range
  else if range.min < 0 then rangeForZShr w shiftAmount
  else ⟨range.min % 2 ^ w.bits / 2 ^ (shiftAmount.toNat % w.bits),
    range.max % 2 ^ w.bits / 2 ^ (shiftAmount.toNat % w.bits)⟩

variable (range other : IntRange)

def add : IntRange :=
  if couldOverflowAdd w range other then top w
  else ⟨range.min + other.min, range.max + other.max⟩

def sub : IntRange :=
  if couldOverflowSub w range other then top w
  else ⟨range.min - other.max, range.max - other.min⟩

def mul : IntRange :=
  if couldOverflowMul w range other then top w
  else
    ⟨Min.min (Min.min (range.min * other.min) (range.min * other.max))
        (Min.min (range.max * other.min) (range.max * other.max)),
      Max.max (Max.max (range.min * other.min) (range.min * other.max))
        (Max.max (range.max * other.min) (range.max * other.max))⟩

end IntRange

open IntRange

def rangeFor {w : Width} : Value w → ℕ → IntRange
  | _, 0 => top w
  | .const _ value, _ + 1 => ⟨value.toInt, value.toInt⟩
  | .binary _ .bitAnd _ right, _ + 1 =>
    match right.asConstant with
    | some mask => rangeForMask w mask.toInt
    | none => top w
  | .shift _ opcode left amount, timeToLive + 1 =>
    match amount.asConstant with
    | some shiftAmount =>
      match opcode with
      | .sShr => (rangeFor left timeToLive).sShr w shiftAmount
      | .zShr => (rangeFor left timeToLive).zShr w shiftAmount
      | .shl => (rangeFor left timeToLive).shl w shiftAmount
    | none => top w
  | .binary _ .add left right, timeToLive + 1 =>
    (rangeFor left timeToLive).add w (rangeFor right timeToLive)
  | .binary _ .sub left right, timeToLive + 1 =>
    (rangeFor left timeToLive).sub w (rangeFor right timeToLive)
  | .binary _ .mul left right, timeToLive + 1 =>
    (rangeFor left timeToLive).mul w (rangeFor right timeToLive)
  | _, _ + 1 => top w

section Words

variable {w : Width}

theorem Width.two_pow_bits (w : Width) : (2 : ℤ) ^ w.bits = 2 * 2 ^ (w.bits - 1) := by
  cases w <;> norm_num [Width.bits]

theorem Width.bits_pos (w : Width) : 0 < w.bits := by cases w <;> norm_num [Width.bits]

variable (x : BitVec w.bits)

theorem inSigned_toInt : InSigned w.bits x.toInt := by
  refine ⟨BitVec.le_toInt x, ?_⟩
  have := BitVec.toInt_lt (x := x)
  unfold signedMax
  omega

theorem staticCast_eq {x : ℤ} (h : InSigned w.bits x) : staticCast w x = x := by
  obtain ⟨hmin, hmax⟩ := h
  have hpow := w.two_pow_bits
  unfold signedMin at hmin
  unfold signedMax at hmax
  refine Int.bmod_eq_of_le_mul_two ?_ ?_
  all_goals
    push_cast
    omega

theorem staticCast_mem (w : Width) (x : ℤ) : InSigned w.bits (staticCast w x) := by
  have hpow := w.two_pow_bits
  have hpos : 0 < 2 ^ w.bits := Nat.two_pow_pos _
  have hle := Int.le_bmod (x := x) hpos
  have hlt := Int.bmod_lt (x := x) hpos
  push_cast at hle hlt
  unfold InSigned signedMin signedMax staticCast
  omega

/-- The conversion keeps the value modulo the size of the type. -/
theorem staticCast_modEq (w : Width) (x : ℤ) : staticCast w x ≡ x [ZMOD 2 ^ w.bits] := by
  have h := Int.bmod_emod (x := x) (m := 2 ^ w.bits)
  exact h

/-- The values of a type are determined modulo its size. -/
theorem eq_staticCast_of_modEq {x y : ℤ} (hx : InSigned w.bits x) (h : x ≡ y [ZMOD 2 ^ w.bits]) :
    x = staticCast w y := by
  have hmod : x % (2 ^ w.bits : ℕ) = y % (2 ^ w.bits : ℕ) := by
    exact h
  rw [← staticCast_eq hx, staticCast, staticCast, Int.bmod_def, Int.bmod_def, hmod]

theorem toInt_modEq : x.toInt ≡ x.toNat [ZMOD 2 ^ w.bits] := by
  rw [BitVec.toInt_eq_toNat_bmod]
  exact staticCast_modEq w _

theorem toInt_shiftLeft (count : ℕ) : (x <<< count).toInt = staticCast w (x.toInt * 2 ^ count) := by
  apply eq_staticCast_of_modEq (inSigned_toInt _)
  calc (x <<< count).toInt ≡ ((x <<< count).toNat : ℤ) [ZMOD 2 ^ w.bits] := toInt_modEq _
    _ ≡ x.toNat * 2 ^ count [ZMOD 2 ^ w.bits] := by
      rw [BitVec.toNat_shiftLeft, Nat.shiftLeft_eq]
      push_cast
      exact Int.mod_modEq _ _
    _ ≡ x.toInt * 2 ^ count [ZMOD 2 ^ w.bits] := (toInt_modEq x).symm.mul_right _

variable (x y : BitVec w.bits)

theorem toInt_add : (x + y).toInt = staticCast w (x.toInt + y.toInt) :=
  BitVec.toInt_add x y

theorem toInt_sub : (x - y).toInt = staticCast w (x.toInt - y.toInt) :=
  BitVec.toInt_sub

theorem toInt_mul : (x * y).toInt = staticCast w (x.toInt * y.toInt) :=
  BitVec.toInt_mul x y

theorem toInt_sshiftRight (count : ℕ) : (x.sshiftRight count).toInt = x.toInt / 2 ^ count := by
  rw [BitVec.toInt_sshiftRight, Int.shiftRight_eq_div_pow]
  rfl

/-- A word that is not negative as a signed integer is the same as an unsigned one. -/
theorem toInt_eq_toNat_of_nonneg {x : BitVec w.bits} (h : 0 ≤ x.toInt) : x.toInt = x.toNat := by
  rw [BitVec.toInt_eq_toNat_cond] at h ⊢
  split_ifs at h ⊢
  · rfl
  · have := x.isLt
    omega

theorem toInt_eq_toNat_of_lt {x : BitVec w.bits} (h : (x.toNat : ℤ) ≤ signedMax w.bits) :
    x.toInt = x.toNat := by
  have hpow := w.two_pow_bits
  unfold signedMax at h
  have hlt : 2 * x.toNat < 2 ^ w.bits := by
    zify
    omega
  rw [BitVec.toInt_eq_toNat_cond, if_pos hlt]

end Words

namespace IntRange

variable {w : Width} {range other : IntRange}

def Contains (range : IntRange) (x : ℤ) : Prop := range.min ≤ x ∧ x ≤ range.max

structure Valid (w : Width) (range : IntRange) : Prop where
  nonempty : range.min ≤ range.max
  min_mem : InSigned w.bits range.min
  max_mem : InSigned w.bits range.max

theorem valid_top (w : Width) : (top w).Valid w := by
  have hmin := signedMin_neg w.bits
  have hmax := signedMax_eq w.bits
  refine ⟨?_, ⟨?_, ?_⟩, ⟨?_, ?_⟩⟩ <;> unfold top <;> dsimp only <;> omega

theorem contains_top (x : BitVec w.bits) : (top w).Contains x.toInt := inSigned_toInt x

def MaskGuard (mask : ℤ) : Prop := mask = -1 ∨ 0 ≤ mask

theorem valid_rangeForMask {mask : ℤ} (hmem : InSigned w.bits mask) (h : MaskGuard mask) :
    (rangeForMask w mask).Valid w := by
  unfold rangeForMask
  split_ifs with hall
  · exact valid_top w
  · refine ⟨?_, InSigned.zero _, hmem⟩
    rcases h with rfl | hnonneg
    · omega
    · exact hnonneg

/-- A bitwise and with a mask is in the range of the mask exactly when the guard holds. -/
theorem rangeForMask_contains_iff (x mask : BitVec w.bits) :
    (rangeForMask w mask.toInt).Contains (x &&& mask).toInt ↔ MaskGuard mask.toInt := by
  constructor
  · intro h
    unfold rangeForMask at h
    split_ifs at h with hall
    · exact .inl (by omega)
    · exact .inr (h.1.trans h.2)
  · rintro (hall | hnonneg)
    · unfold rangeForMask
      rw [if_pos (by omega)]
      exact contains_top _
    · have hmask := toInt_eq_toNat_of_nonneg hnonneg
      have hle : (x &&& mask).toNat ≤ mask.toNat := by
        rw [BitVec.toNat_and]
        exact Nat.and_le_right
      have hmax := (inSigned_toInt mask).2
      have hand : (x &&& mask).toInt = (x &&& mask).toNat := toInt_eq_toNat_of_lt (by omega)
      unfold rangeForMask
      rw [if_neg (by omega), hand]
      exact ⟨by positivity, by dsimp only; omega⟩

variable {a b : ℤ}

def Safe (operation : ℕ → ℤ → ℤ → Option ℤ) (onIntegers : ℤ → ℤ → ℤ) : Prop :=
  ∀ {bits a b result}, InSigned bits a → InSigned bits b → operation bits a b = some result →
    InSigned bits (onIntegers a b)

theorem safe_safeAdd : Safe safeAdd (· + ·) := by
  intro bits a b result ha hb h
  rw [safeAdd_eq ha hb] at h
  split_ifs at h with hmem
  exact hmem

theorem safe_safeSub : Safe safeSub (· - ·) := by
  intro bits a b result ha hb h
  rw [safeSub_eq ha hb] at h
  split_ifs at h with hmem
  exact ⟨hmem.1.le, hmem.2⟩

theorem safe_safeMultiply : Safe safeMultiply (· * ·) := by
  intro bits a b result ha hb h
  rw [safeMultiply_eq ha hb] at h
  split_ifs at h with hmem
  exact hmem

theorem Safe.mem_of_not_overflows {operation : ℕ → ℤ → ℤ → Option ℤ} {onIntegers : ℤ → ℤ → ℤ}
    (hsafe : Safe operation onIntegers) (h : overflows w operation a b = false) :
    InSigned w.bits (onIntegers a b) := by
  simp only [overflows, Bool.not_eq_false', Bool.and_eq_true, decide_eq_true_eq] at h
  obtain ⟨⟨ha, hb⟩, hsome⟩ := h
  obtain ⟨result, hres⟩ := Option.isSome_iff_exists.mp hsome
  exact hsafe ha hb hres

/-- Without overflow at the ends, no sum of elements overflows. -/
theorem sum_mem (h : couldOverflowAdd w range other = false) (ha : range.Contains a)
    (hb : other.Contains b) : InSigned w.bits (a + b) := by
  simp only [couldOverflowAdd, couldOverflow, Bool.or_eq_false_iff] at h
  have hmin := safe_safeAdd.mem_of_not_overflows h.1.1.1
  have hmax := safe_safeAdd.mem_of_not_overflows h.2
  exact ⟨hmin.1.trans (add_le_add ha.1 hb.1), (add_le_add ha.2 hb.2).trans hmax.2⟩

theorem difference_mem (h : couldOverflowSub w range other = false) (ha : range.Contains a)
    (hb : other.Contains b) : InSigned w.bits (a - b) := by
  simp only [couldOverflowSub, couldOverflow, Bool.or_eq_false_iff] at h
  have hmin := safe_safeSub.mem_of_not_overflows h.1.1.2
  have hmax := safe_safeSub.mem_of_not_overflows h.1.2
  exact ⟨hmin.1.trans (sub_le_sub ha.1 hb.2), (sub_le_sub ha.2 hb.1).trans hmax.2⟩

/-- A product is between the products of the ends of one factor. -/
theorem mul_mem_ends {x : ℤ} (h : a ≤ x ∧ x ≤ b) (y : ℤ) :
    Min.min (a * y) (b * y) ≤ x * y ∧ x * y ≤ Max.max (a * y) (b * y) := by
  rcases le_total 0 y with hy | hy
  · exact ⟨(min_le_left _ _).trans (mul_le_mul_of_nonneg_right h.1 hy),
      (mul_le_mul_of_nonneg_right h.2 hy).trans (le_max_right _ _)⟩
  · exact ⟨(min_le_right _ _).trans (mul_le_mul_of_nonpos_right h.2 hy),
      (mul_le_mul_of_nonpos_right h.1 hy).trans (le_max_left _ _)⟩

abbrev corners (range other : IntRange) : IntRange :=
  ⟨Min.min (Min.min (range.min * other.min) (range.min * other.max))
      (Min.min (range.max * other.min) (range.max * other.max)),
    Max.max (Max.max (range.min * other.min) (range.min * other.max))
      (Max.max (range.max * other.min) (range.max * other.max))⟩

/-- A product is between the products of the ends of both factors. -/
theorem mul_mem_corners (ha : range.Contains a) (hb : other.Contains b) :
    (corners range other).Contains (a * b) := by
  have hleft := mul_mem_ends ha b
  have hmin := mul_mem_ends hb range.min
  have hmax := mul_mem_ends hb range.max
  simp only [mul_comm _ range.min, mul_comm _ range.max] at hmin hmax
  exact ⟨(min_le_min hmin.1 hmax.1).trans hleft.1, hleft.2.trans (max_le_max hmin.2 hmax.2)⟩

theorem corners_mem (h : couldOverflowMul w range other = false) :
    InSigned w.bits (corners range other).min ∧ InSigned w.bits (corners range other).max := by
  simp only [couldOverflowMul, couldOverflow, Bool.or_eq_false_iff] at h
  have h₁ := safe_safeMultiply.mem_of_not_overflows h.1.1.1
  have h₂ := safe_safeMultiply.mem_of_not_overflows h.1.1.2
  have h₃ := safe_safeMultiply.mem_of_not_overflows h.1.2
  have h₄ := safe_safeMultiply.mem_of_not_overflows h.2
  refine ⟨⟨?_, ?_⟩, ⟨?_, ?_⟩⟩
  · exact le_min (le_min h₁.1 h₂.1) (le_min h₃.1 h₄.1)
  · exact (min_le_left _ _).trans ((min_le_left _ _).trans h₁.2)
  · exact h₁.1.trans ((le_max_left _ _).trans (le_max_left _ _))
  · exact max_le (max_le h₁.2 h₂.2) (max_le h₃.2 h₄.2)

theorem product_mem (h : couldOverflowMul w range other = false) (ha : range.Contains a)
    (hb : other.Contains b) : InSigned w.bits (a * b) := by
  obtain ⟨hmin, hmax⟩ := corners_mem h
  obtain ⟨hle, hge⟩ := mul_mem_corners ha hb
  exact ⟨hmin.1.trans hle, hge.trans hmax.2⟩

section

variable (h : range.Valid w)

include h

theorem Valid.contains_min : range.Contains range.min := ⟨le_rfl, h.nonempty⟩

theorem Valid.contains_max : range.Contains range.max := ⟨h.nonempty, le_rfl⟩

theorem Valid.add (ho : other.Valid w) : (range.add w other).Valid w := by
  unfold IntRange.add
  split_ifs with hover
  · exact valid_top w
  · rw [Bool.not_eq_true] at hover
    exact ⟨add_le_add h.nonempty ho.nonempty, sum_mem hover h.contains_min ho.contains_min,
      sum_mem hover h.contains_max ho.contains_max⟩

theorem Valid.sub (ho : other.Valid w) : (range.sub w other).Valid w := by
  unfold IntRange.sub
  split_ifs with hover
  · exact valid_top w
  · rw [Bool.not_eq_true] at hover
    exact ⟨sub_le_sub h.nonempty ho.nonempty, difference_mem hover h.contains_min ho.contains_max,
      difference_mem hover h.contains_max ho.contains_min⟩

theorem Valid.mul (ho : other.Valid w) : (range.mul w other).Valid w := by
  unfold IntRange.mul
  split_ifs with hover
  · exact valid_top w
  · obtain ⟨hmin, hmax⟩ := corners_mem (Bool.not_eq_true _ ▸ hover)
    obtain ⟨hle, hge⟩ := mul_mem_corners h.contains_min ho.contains_min
    exact ⟨hle.trans hge, hmin, hmax⟩

end

section Shift

variable {count : ℕ}

/-- The integers that can be shifted left without overflow. -/
theorem shift_mem_iff (hcnt : count < w.bits) (a : ℤ) : InSigned w.bits (a * 2 ^ count) ↔
    -2 ^ (w.bits - 1 - count) ≤ a ∧ a < 2 ^ (w.bits - 1 - count) := by
  have hpos : (0 : ℤ) < 2 ^ count := by positivity
  have hpow : (2 : ℤ) ^ (w.bits - 1) = 2 ^ (w.bits - 1 - count) * 2 ^ count := by
    rw [← pow_add]
    congr 1
    omega
  unfold InSigned signedMin signedMax
  rw [hpow, ← neg_mul, mul_le_mul_iff_left₀ hpos, Int.le_sub_one_iff, mul_lt_mul_iff_left₀ hpos]

/-- The low bits of a shifted integer are zero. -/
theorem dvd_staticCast_shift (hcnt : count < w.bits) (a : ℤ) :
    (2 : ℤ) ^ count ∣ staticCast w (a * 2 ^ count) := by
  have hdvd : (2 : ℤ) ^ count ∣ 2 ^ w.bits := pow_dvd_pow 2 hcnt.le
  rw [← Int.modEq_zero_iff_dvd]
  exact ((staticCast_modEq w _).of_dvd hdvd).trans (Int.modEq_zero_iff_dvd.mpr ⟨a, mul_comm _ _⟩)

/-- A shift to the left and back shows whether there was an overflow. -/
theorem staticCast_shift_div (hcnt : count < w.bits) (a : ℤ) :
    staticCast w (a * 2 ^ count) / 2 ^ count = a ↔ InSigned w.bits (a * 2 ^ count) := by
  have hpos : (0 : ℤ) < 2 ^ count := by positivity
  constructor
  · intro h
    have heq : staticCast w (a * 2 ^ count) = a * 2 ^ count := by
      rw [← Int.ediv_mul_cancel (dvd_staticCast_shift hcnt a), h]
    exact heq ▸ staticCast_mem w (a * 2 ^ count)
  · intro h
    rw [staticCast_eq h, Int.mul_ediv_cancel _ hpos.ne']

/-- The ends of a shifted range. -/
theorem Valid.shl_eq (h : range.Valid w) (shiftAmount : BitVec 32)
    (hcnt : shiftAmount.toNat % w.bits = count) (hlt : count < w.bits) :
    range.shl w shiftAmount =
      ⟨if InSigned w.bits (range.min * 2 ^ count) then range.min * 2 ^ count else signedMin w.bits,
        if InSigned w.bits (range.max * 2 ^ count) then range.max * 2 ^ count else signedMax w.bits⟩ := by
  unfold IntRange.shl
  simp only [hcnt, staticCast_eq h.min_mem, staticCast_eq h.max_mem, ne_eq,
    staticCast_shift_div hlt, ite_not]
  congr 1
  all_goals
    split_ifs with hfits
    · exact staticCast_eq hfits
    · rfl

/-- The guard of a shift to the left: the ends overflow both or not at all, unless the end that does
not overflow is the last one on its side. -/
def ShlGuard (w : Width) (range : IntRange) (shiftAmount : BitVec 32) : Prop :=
  let count := shiftAmount.toNat % w.bits
  (InSigned w.bits (range.min * 2 ^ count) ↔ InSigned w.bits (range.max * 2 ^ count)) ∨
    range.min * 2 ^ count = signedMin w.bits ∨
    (range.max + 1) * 2 ^ count = signedMax w.bits + 1

theorem Valid.shl (h : range.Valid w) (shiftAmount : BitVec 32) :
    (range.shl w shiftAmount).Valid w := by
  have hlt := Nat.mod_lt shiftAmount.toNat w.bits_pos
  have htop := valid_top w
  rw [h.shl_eq shiftAmount rfl hlt]
  refine ⟨?_, ?_, ?_⟩
  · dsimp only
    split_ifs with hmin hmax hmax
    · exact mul_le_mul_of_nonneg_right h.nonempty (by positivity)
    · exact hmin.2
    · exact hmax.1
    · exact htop.nonempty
  · dsimp only
    split_ifs with hmin
    · exact hmin
    · exact htop.min_mem
  · dsimp only
    split_ifs with hmax
    · exact hmax
    · exact htop.max_mem

variable {shiftAmount : BitVec 32} {x : BitVec w.bits}

/-- A shift to the left is in the shifted range of its operand when the guard holds. -/
theorem Valid.contains_shl (h : range.Valid w) (hguard : ShlGuard w range shiftAmount)
    (hx : range.Contains x.toInt) :
    (range.shl w shiftAmount).Contains (x <<< (shiftAmount.toNat % w.bits)).toInt := by
  have hlt := Nat.mod_lt shiftAmount.toNat w.bits_pos
  rw [h.shl_eq shiftAmount rfl hlt, toInt_shiftLeft]
  unfold ShlGuard at hguard
  generalize shiftAmount.toNat % w.bits = count at hlt hguard
  have hres := staticCast_mem w (x.toInt * 2 ^ count)
  have hpow : (0 : ℤ) < 2 ^ count := by positivity
  have hle := mul_le_mul_of_nonneg_right hx.1 hpow.le
  have hge := mul_le_mul_of_nonneg_right hx.2 hpow.le
  have hfit : InSigned w.bits (range.min * 2 ^ count) → InSigned w.bits (range.max * 2 ^ count) →
      staticCast w (x.toInt * 2 ^ count) = x.toInt * 2 ^ count := fun hmin hmax =>
    staticCast_eq ⟨hmin.1.trans hle, hge.trans hmax.2⟩
  constructor
  · dsimp only
    split_ifs with hmin
    · by_cases hmax : InSigned w.bits (range.max * 2 ^ count)
      · rw [hfit hmin hmax]
        exact hle
      · rcases hguard with hboth | hleast | hgreatest
        · exact absurd (hboth.mp hmin) hmax
        · exact hleast ▸ hres.1
        · refine absurd ⟨hmin.1.trans (hle.trans hge), ?_⟩ hmax
          linarith
    · exact hres.1
  · dsimp only
    split_ifs with hmax
    · by_cases hmin : InSigned w.bits (range.min * 2 ^ count)
      · rw [hfit hmin hmax]
        exact hge
      · rcases hguard with hboth | hleast | hgreatest
        · exact absurd (hboth.mpr hmax) hmin
        · exact absurd ⟨hleast.ge, (hle.trans hge).trans hmax.2⟩ hmin
        · obtain ⟨k, hk⟩ := dvd_staticCast_shift hlt x.toInt
          have hbound : k * 2 ^ count < (range.max + 1) * 2 ^ count := by
            have := hres.2
            linarith
          have := (mul_lt_mul_iff_left₀ hpow).mp hbound
          rw [hk, mul_comm]
          exact mul_le_mul_of_nonneg_right (by omega) hpow.le
    · exact hres.2

theorem exists_word {a : ℤ} (h : InSigned w.bits a) : ∃ x : BitVec w.bits, x.toInt = a :=
  ⟨BitVec.ofInt _ a, (BitVec.toInt_ofInt a).trans (staticCast_eq h)⟩

/-- Without the guard, the operand just past the end that does not overflow leaves the range. -/
theorem Valid.shlGuard_of_contains (h : range.Valid w)
    (hall : ∀ x : BitVec w.bits, range.Contains x.toInt →
      (range.shl w shiftAmount).Contains (x <<< (shiftAmount.toNat % w.bits)).toInt) :
    ShlGuard w range shiftAmount := by
  have hlt := Nat.mod_lt shiftAmount.toNat w.bits_pos
  rw [h.shl_eq shiftAmount rfl hlt] at hall
  unfold ShlGuard
  generalize shiftAmount.toNat % w.bits = count at hlt hall
  have hpow : (0 : ℤ) < 2 ^ count := by positivity
  have hwidth : (2 : ℤ) ^ (w.bits - 1 - count) * 2 ^ count = 2 ^ (w.bits - 1) := by
    rw [← pow_add]
    congr 1
    omega
  have hfits := shift_mem_iff (w := w) hlt
  have hmax := h.max_mem.2
  have hmin := h.min_mem.1
  have hne := h.nonempty
  have htotal := w.two_pow_bits
  generalize hquotient : (2 : ℤ) ^ (w.bits - 1 - count) = quotient at hwidth hfits
  have hsignedMin : signedMin w.bits = -(quotient * 2 ^ count) := by rw [hwidth]; rfl
  have hsignedMax : signedMax w.bits + 1 = quotient * 2 ^ count := by rw [hwidth]; simp [signedMax]
  dsimp only
  rw [hsignedMin, hsignedMax, ← neg_mul, mul_left_inj' hpow.ne', mul_left_inj' hpow.ne', hfits, hfits]
  by_contra hnot
  rw [not_or, not_or] at hnot
  obtain ⟨honeSided, hleast, hgreatest⟩ := hnot
  by_cases hminFits : -quotient ≤ range.min ∧ range.min < quotient
  · obtain ⟨x, hx⟩ := exists_word (w := w) (a := quotient) ⟨by omega, by omega⟩
    have hbound := (hall x ⟨by omega, by omega⟩).1
    dsimp only at hbound
    rw [if_pos ((hfits _).mpr hminFits), toInt_shiftLeft, hx] at hbound
    have hwrapped : signedMin w.bits = staticCast w (quotient * 2 ^ count) := by
      refine eq_staticCast_of_modEq (valid_top w).min_mem (Int.modEq_iff_dvd.mpr ⟨1, ?_⟩)
      rw [hsignedMin, htotal, hwidth]
      ring
    rw [← hwrapped, hsignedMin, ← neg_mul, mul_le_mul_iff_left₀ hpow] at hbound
    omega
  · have hmaxFits : -quotient ≤ range.max ∧ range.max < quotient := by
      by_contra hfit
      exact honeSided ⟨fun hfit' => absurd hfit' hminFits, fun hfit' => absurd hfit' hfit⟩
    obtain ⟨x, hx⟩ := exists_word (w := w) (a := -quotient - 1) ⟨by omega, by omega⟩
    have hbound := (hall x ⟨by omega, by omega⟩).2
    rw [if_pos ((hfits _).mpr hmaxFits), toInt_shiftLeft, hx] at hbound
    have hwrapped : (quotient - 1) * 2 ^ count = staticCast w ((-quotient - 1) * 2 ^ count) := by
      apply eq_staticCast_of_modEq ((hfits _).mpr ⟨by omega, by omega⟩)
      rw [Int.modEq_iff_dvd]
      refine ⟨-1, ?_⟩
      rw [htotal, ← hwidth]
      ring
    rw [← hwrapped, mul_le_mul_iff_left₀ hpow] at hbound
    omega

theorem Valid.sShr (h : range.Valid w) (shiftAmount : BitVec 32) :
    (range.sShr w shiftAmount).Valid w := by
  have hpow : (0 : ℤ) < 2 ^ (shiftAmount.toNat % w.bits) := by positivity
  obtain ⟨x, hx⟩ := exists_word h.min_mem
  obtain ⟨y, hy⟩ := exists_word h.max_mem
  unfold IntRange.sShr
  rw [staticCast_eq h.min_mem, staticCast_eq h.max_mem]
  refine ⟨Int.ediv_le_ediv hpow h.nonempty, ?_, ?_⟩
  · rw [← hx, ← toInt_sshiftRight]
    exact inSigned_toInt _
  · rw [← hy, ← toInt_sshiftRight]
    exact inSigned_toInt _

theorem Valid.contains_sShr (h : range.Valid w) (hx : range.Contains x.toInt) :
    (range.sShr w shiftAmount).Contains (x.sshiftRight (shiftAmount.toNat % w.bits)).toInt := by
  have hpow : (0 : ℤ) < 2 ^ (shiftAmount.toNat % w.bits) := by positivity
  unfold IntRange.sShr
  rw [staticCast_eq h.min_mem, staticCast_eq h.max_mem, toInt_sshiftRight]
  exact ⟨Int.ediv_le_ediv hpow hx.1, Int.ediv_le_ediv hpow hx.2⟩

/-- All bits shifted to the right are all bits, or a mask that is not negative. -/
theorem allOnes_shift_cases (hlt : count < w.bits) :
    count = 0 ∧ staticCast w ((2 ^ w.bits - 1) / 2 ^ count) = -1 ∨
      0 ≤ (2 ^ w.bits - 1 : ℤ) / 2 ^ count ∧
        (2 ^ w.bits - 1 : ℤ) / 2 ^ count ≤ signedMax w.bits := by
  have htotal := w.two_pow_bits
  have hhalf : (0 : ℤ) < 2 ^ (w.bits - 1) := by positivity
  rcases Nat.eq_zero_or_pos count with rfl | hpos
  · refine .inl ⟨rfl, ?_⟩
    rw [pow_zero, Int.ediv_one]
    refine (eq_staticCast_of_modEq ?_ ?_).symm
    · have hmin := signedMin_neg w.bits
      have hmax := signedMax_eq w.bits
      exact ⟨by omega, by omega⟩
    · exact Int.modEq_iff_dvd.mpr ⟨1, by ring⟩
  · refine .inr ⟨Int.ediv_nonneg (by omega) (by positivity), ?_⟩
    have htwo : (2 : ℤ) ≤ 2 ^ count := by
      calc (2 : ℤ) = 2 ^ 1 := (pow_one 2).symm
        _ ≤ 2 ^ count := pow_le_pow_right₀ (by norm_num) hpos
    unfold signedMax
    rw [Int.le_sub_one_iff, Int.ediv_lt_iff_lt_mul (by positivity)]
    nlinarith

/-- The range of a logical shift of values that may be negative. -/
theorem rangeForZShr_spec (w : Width) (shiftAmount : BitVec 32) :
    (rangeForZShr w shiftAmount).Valid w ∧ ∀ x : BitVec w.bits,
      (rangeForZShr w shiftAmount).Contains (x >>> (shiftAmount.toNat % w.bits)).toInt := by
  have hlt := Nat.mod_lt shiftAmount.toNat w.bits_pos
  unfold rangeForZShr
  generalize shiftAmount.toNat % w.bits = count at hlt
  rcases allOnes_shift_cases (w := w) hlt with ⟨-, hall⟩ | ⟨hnonneg, hle⟩
  · rw [hall, rangeForMask, if_pos (by norm_num)]
    exact ⟨valid_top w, fun x => contains_top _⟩
  · have hmin := signedMin_neg w.bits
    have hmem : InSigned w.bits ((2 ^ w.bits - 1) / 2 ^ count) := ⟨by omega, hle⟩
    rw [staticCast_eq hmem]
    refine ⟨valid_rangeForMask hmem (.inr hnonneg), fun x => ?_⟩
    have hshift : ((x >>> count).toNat : ℤ) ≤ (2 ^ w.bits - 1) / 2 ^ count := by
      rw [BitVec.toNat_ushiftRight, Nat.shiftRight_eq_div_pow]
      push_cast
      apply Int.ediv_le_ediv (by positivity)
      have hx : (x.toNat : ℤ) < 2 ^ w.bits := by exact_mod_cast x.isLt
      omega
    rw [rangeForMask, if_neg (by omega), toInt_eq_toNat_of_lt (hshift.trans hle)]
    exact ⟨by positivity, hshift⟩

/-- A logical shift of values that are not negative divides the ends. -/
theorem Valid.zShr_eq (h : range.Valid w) (hnonneg : 0 ≤ range.min) :
    (⟨range.min % 2 ^ w.bits / 2 ^ count, range.max % 2 ^ w.bits / 2 ^ count⟩ : IntRange) =
      ⟨range.min / 2 ^ count, range.max / 2 ^ count⟩ := by
  have htotal := w.two_pow_bits
  have hmax := h.max_mem.2
  have hne := h.nonempty
  unfold signedMax at hmax
  rw [Int.emod_eq_of_lt hnonneg (by omega), Int.emod_eq_of_lt (by omega) (by omega)]

theorem Valid.zShr (h : range.Valid w) (shiftAmount : BitVec 32) :
    (range.zShr w shiftAmount).Valid w := by
  unfold IntRange.zShr
  split_ifs with hzero hneg
  · exact h
  · exact (rangeForZShr_spec w shiftAmount).1
  · have hmin := signedMin_neg w.bits
    rw [h.zShr_eq (by omega)]
    generalize shiftAmount.toNat % w.bits = count
    have hpow : (0 : ℤ) < 2 ^ count := by positivity
    have hnonneg : 0 ≤ range.min / 2 ^ count := Int.ediv_nonneg (by omega) hpow.le
    have hle : range.max / 2 ^ count ≤ range.max :=
      Int.ediv_le_self _ ((by omega : (0 : ℤ) ≤ range.min).trans h.nonempty)
    have hmono := Int.ediv_le_ediv hpow h.nonempty
    have hmax := h.max_mem.2
    refine ⟨hmono, ⟨?_, ?_⟩, ⟨?_, ?_⟩⟩ <;> dsimp only <;> omega

theorem Valid.contains_zShr (h : range.Valid w) (hx : range.Contains x.toInt) :
    (range.zShr w shiftAmount).Contains (x >>> (shiftAmount.toNat % w.bits)).toInt := by
  unfold IntRange.zShr
  split_ifs with hzero hneg
  · simpa [hzero] using hx
  · exact (rangeForZShr_spec w shiftAmount).2 x
  · rw [h.zShr_eq (by omega)]
    generalize shiftAmount.toNat % w.bits = count
    have hpow : (0 : ℤ) < 2 ^ count := by positivity
    have hword := toInt_eq_toNat_of_nonneg (x := x) (le_trans (by omega) hx.1)
    have hshift : ((x >>> count).toNat : ℤ) = x.toInt / 2 ^ count := by
      rw [hword, BitVec.toNat_ushiftRight, Nat.shiftRight_eq_div_pow]
      rfl
    have hle : ((x >>> count).toNat : ℤ) ≤ signedMax w.bits := by
      rw [hshift]
      exact (Int.ediv_le_self _ (le_trans (by omega) hx.1)).trans (inSigned_toInt x).2
    rw [toInt_eq_toNat_of_lt hle, hshift]
    exact ⟨Int.ediv_le_ediv hpow hx.1, Int.ediv_le_ediv hpow hx.2⟩

end Shift

section Transfer

variable {x y : BitVec w.bits}

section

variable (hx : range.Contains x.toInt) (hy : other.Contains y.toInt)

include hx hy

theorem contains_add : (range.add w other).Contains (x + y).toInt := by
  unfold IntRange.add
  split_ifs with hover
  · exact contains_top _
  · rw [toInt_add, staticCast_eq (sum_mem (Bool.not_eq_true _ ▸ hover) hx hy)]
    exact ⟨add_le_add hx.1 hy.1, add_le_add hx.2 hy.2⟩

theorem contains_sub : (range.sub w other).Contains (x - y).toInt := by
  unfold IntRange.sub
  split_ifs with hover
  · exact contains_top _
  · rw [toInt_sub, staticCast_eq (difference_mem (Bool.not_eq_true _ ▸ hover) hx hy)]
    exact ⟨sub_le_sub hx.1 hy.2, sub_le_sub hx.2 hy.1⟩

theorem contains_mul : (range.mul w other).Contains (x * y).toInt := by
  unfold IntRange.mul
  split_ifs with hover
  · exact contains_top _
  · rw [toInt_mul, staticCast_eq (product_mem (Bool.not_eq_true _ ▸ hover) hx hy)]
    exact mul_mem_corners hx hy

end

end Transfer

end IntRange

section Analysis

variable {w : Width}

def BinaryOpcode.isRanged : BinaryOpcode → Bool
  | .add | .sub | .mul => true
  | _ => false

def Consults (P : ∀ {w : Width}, Value w → ℕ → Prop) {w : Width} : Value w → ℕ → Prop
  | _, 0 => True
  | .shift index opcode left amount, timeToLive + 1 =>
    P (.shift index opcode left amount) timeToLive ∧
      (amount.isConstant = true → Consults P left timeToLive)
  | .binary index opcode left right, timeToLive + 1 =>
    P (.binary index opcode left right) timeToLive ∧
      (opcode.isRanged = true → Consults P left timeToLive ∧ Consults P right timeToLive)
  | value, timeToLive + 1 => P value timeToLive

def StepSound {w : Width} : Value w → ℕ → Prop
  | .shift index opcode left amount, timeToLive =>
    ∀ shiftAmount, amount.asConstant = some shiftAmount → ∀ x : BitVec w.bits,
      (rangeFor left timeToLive).Contains x.toInt →
        (rangeFor (.shift index opcode left amount) (timeToLive + 1)).Contains
          (opcode.eval x shiftAmount.toNat).toInt
  | .binary index .bitAnd left right, timeToLive =>
    ∀ mask, right.asConstant = some mask → ∀ x : BitVec w.bits,
      (rangeFor (.binary index .bitAnd left right) (timeToLive + 1)).Contains (x &&& mask).toInt
  | .binary index opcode left right, timeToLive =>
    opcode.isRanged = true → ∀ (env : Environment) (x y : BitVec w.bits),
      (rangeFor left timeToLive).Contains x.toInt → (rangeFor right timeToLive).Contains y.toInt →
        (rangeFor (.binary index opcode left right) (timeToLive + 1)).Contains
          (opcode.eval env x y).toInt
  | _, _ => True

/-- A mask is not negative or has all bits, and a shift to the left does not overflow at one end of
the range of its operand only. -/
def StepGuard {w : Width} : Value w → ℕ → Prop
  | .binary _ .bitAnd _ right, _ => ∀ mask, right.asConstant = some mask → MaskGuard mask.toInt
  | .shift _ .shl left amount, timeToLive =>
    ∀ shiftAmount, amount.asConstant = some shiftAmount →
      ShlGuard w (rangeFor left timeToLive) shiftAmount
  | _, _ => True

variable {value : Value w} {ttl : ℕ}

theorem isConstant_iff : value.isConstant ↔ ∃ constant, value.asConstant = some constant := Option.isSome_iff_exists

theorem rangeFor_zero (value : Value w) : rangeFor value 0 = top w := by
  unfold rangeFor
  rfl

/-- The ranges that are computed under the guards are ranges of values of the type. -/
theorem valid_rangeFor (h : Consults StepGuard value ttl) : (rangeFor value ttl).Valid w := by
  induction ttl generalizing w value with
  | zero => exact rangeFor_zero value ▸ valid_top w
  | succ ttl ih =>
    cases value with
    | const index value => exact ⟨le_rfl, inSigned_toInt value, inSigned_toInt value⟩
    | shift index opcode left amount =>
      unfold rangeFor
      cases hamt : amount.asConstant with
      | none => exact valid_top w
      | some shiftAmount =>
        have hleft := ih (h.2 (isConstant_iff.mpr ⟨shiftAmount, hamt⟩))
        cases opcode with
        | shl => exact hleft.shl shiftAmount
        | sShr => exact hleft.sShr shiftAmount
        | zShr => exact hleft.zShr shiftAmount
    | binary index opcode left right =>
      cases opcode with
      | add => exact (ih (h.2 rfl).1).add (ih (h.2 rfl).2)
      | sub => exact (ih (h.2 rfl).1).sub (ih (h.2 rfl).2)
      | mul => exact (ih (h.2 rfl).1).mul (ih (h.2 rfl).2)
      | bitAnd =>
        unfold rangeFor
        cases hmask : right.asConstant with
        | none => exact valid_top w
        | some mask => exact valid_rangeForMask (inSigned_toInt mask) (h.1 mask hmask)
      | _ => exact valid_top w
    | _ => exact valid_top _

/-- A step is sound exactly under its guard. -/
theorem stepSound_iff
    (h : ∀ {index opcode} {left : Value w} {amount}, value = .shift index opcode left amount →
      amount.isConstant → (rangeFor left ttl).Valid w) :
    StepSound value ttl ↔ StepGuard value ttl := by
  cases value with
  | shift index opcode left amount =>
    cases hamt : amount.asConstant with
    | none =>
      cases opcode <;> simp [StepSound, StepGuard, hamt]
    | some shiftAmount =>
      have hleft := h rfl (isConstant_iff.mpr ⟨shiftAmount, hamt⟩)
      simp only [StepSound, hamt, Option.some.injEq, forall_eq', rangeFor]
      cases opcode with
      | shl =>
        simp only [StepGuard, hamt, Option.some.injEq]
        exact ⟨fun hsound _ heq => heq ▸ hleft.shlGuard_of_contains hsound,
          fun hguard x hx => hleft.contains_shl (hguard shiftAmount rfl) hx⟩
      | sShr => exact iff_of_true (fun x hx => hleft.contains_sShr hx) trivial
      | zShr => exact iff_of_true (fun x hx => hleft.contains_zShr hx) trivial
  | binary index opcode left right =>
    cases opcode with
    | add => exact iff_of_true (fun _ _ _ _ hx hy => contains_add hx hy) trivial
    | sub => exact iff_of_true (fun _ _ _ _ hx hy => contains_sub hx hy) trivial
    | mul => exact iff_of_true (fun _ _ _ _ hx hy => contains_mul hx hy) trivial
    | bitAnd =>
      simp only [StepSound, StepGuard, rangeFor]
      refine forall₂_congr fun mask hmask => ?_
      simp only [hmask, rangeForMask_contains_iff, forall_const]
    | _ => exact iff_of_true (fun hranged => absurd hranged nofun) trivial
  | _ => exact Iff.rfl

/-- All steps are sound exactly when all guards hold. -/
theorem consults_stepSound_iff : Consults StepSound value ttl ↔ Consults StepGuard value ttl := by
  induction ttl generalizing w value with
  | zero => cases value <;> exact Iff.rfl
  | succ ttl ih =>
    cases value with
    | shift index opcode left amount =>
      simp only [Consults, ih]
      refine and_congr_left fun hleft => stepSound_iff fun heq hconst => ?_
      obtain ⟨rfl, rfl, rfl, rfl⟩ := Value.shift.inj heq
      exact valid_rangeFor (hleft hconst)
    | binary index opcode left right =>
      simp only [Consults, ih]
      exact and_congr_left fun _ => stepSound_iff nofun
    | _ => exact Iff.rfl

/-- Under the guards a value lies in its range in every environment. -/
theorem contains_rangeFor (h : Consults StepGuard value ttl) (env : Environment) :
    (rangeFor value ttl).Contains (value.eval env).toInt := by
  induction ttl generalizing w value with
  | zero => exact rangeFor_zero value ▸ contains_top _
  | succ ttl ih =>
    cases value with
    | const index value => exact ⟨le_rfl, le_rfl⟩
    | shift index opcode left amount =>
      cases hamt : amount.asConstant with
      | none =>
        unfold rangeFor
        rw [hamt]
        exact contains_top _
      | some shiftAmount =>
        have hleft := h.2 (isConstant_iff.mpr ⟨shiftAmount, hamt⟩)
        have hstep := (consults_stepSound_iff.mpr h).1 shiftAmount hamt (left.eval env) (ih hleft)
        rw [Value.eval, Value.eval_of_asConstant hamt]
        exact hstep
    | binary index opcode left right =>
      have hstep := (consults_stepSound_iff.mpr h).1
      cases opcode with
      | add => exact hstep rfl env _ _ (ih (h.2 rfl).1) (ih (h.2 rfl).2)
      | sub => exact hstep rfl env _ _ (ih (h.2 rfl).1) (ih (h.2 rfl).2)
      | mul => exact hstep rfl env _ _ (ih (h.2 rfl).1) (ih (h.2 rfl).2)
      | bitAnd =>
        cases hmask : right.asConstant with
        | none =>
          unfold rangeFor
          rw [hmask]
          exact contains_top _
        | some mask =>
          have hcont := hstep mask hmask (left.eval env)
          rw [Value.eval, Value.eval_of_asConstant hmask]
          exact hcont
      | _ => exact contains_top _
    | _ => exact contains_top _

end Analysis

section Checks

variable {w : Width}

def foldChecked (operation : ℕ → ℤ → ℤ → Option ℤ) : Value w → Value w → Option (BitVec w.bits) :=
  foldConstant fun a b => (operation w.bits a.toInt b.toInt).map (BitVec.ofInt w.bits)

def checkAddConstant : Value w → Value w → Option (BitVec w.bits) := foldChecked safeAdd

def checkSubConstant : Value w → Value w → Option (BitVec w.bits) := foldChecked safeSub

def checkMulConstant : Value w → Value w → Option (BitVec w.bits) := foldChecked safeMultiply

def checkNegConstant (value : Value w) : Option (BitVec w.bits) :=
  value.asConstant.bind fun constant => if constant = -constant then none else some (-constant)

variable (proc : Procedure) (index : ℕ) (left right : Value w)

def reduceOrderedCheckAdd : Value w :=
  if right.isInt 0 then .identity index left
  else if !(rangeFor left 5).couldOverflowAdd w (rangeFor right 5) then
    .identity index (.binary (proc.newIndex 0) .add left right)
  else .binary index .checkAdd left right

def reduceCheckAdd : Value w :=
  match checkAddConstant left right with
  | some constant => .identity index (.const (proc.newIndex 0) constant)
  | none =>
    let (left, right) := handleCommutativity left right
    reduceOrderedCheckAdd proc index left right

def reduceCheckSub : Value w :=
  match checkSubConstant left right with
  | some constant => .identity index (.const (proc.newIndex 0) constant)
  | none =>
    if right.isInt 0 then .identity index left
    else
      match checkNegConstant right with
      | some negatedConstant =>
        .binary index .checkAdd left (.const (proc.newIndex 0) negatedConstant)
      | none =>
        if !(rangeFor left 5).couldOverflowSub w (rangeFor right 5) then
          .identity index (.binary (proc.newIndex 0) .sub left right)
        else .binary index .checkSub left right

def reduceOrderedCheckMul : Value w :=
  if right.isInt 0 then .identity index (.const (proc.newIndex 0) 0)
  else if right.isInt 1 then .identity index left
  else if right.isInt 2 then .binary index .checkAdd left left
  else if !(rangeFor left 5).couldOverflowMul w (rangeFor right 5) then
    .identity index (.binary (proc.newIndex 0) .mul left right)
  else .binary index .checkMul left right

def reduceCheckMul : Value w :=
  match checkMulConstant left right with
  | some constant => .identity index (.const (proc.newIndex 0) constant)
  | none =>
    let (left, right) := handleCommutativity left right
    reduceOrderedCheckMul proc index left right

inductive CheckOpcode where
  | checkAdd
  | checkSub
  | checkMul

def CheckOpcode.Overflows (opcode : CheckOpcode) (left right : BitVec w.bits) : Prop :=
  match opcode with
  | .checkAdd => ¬InSigned w.bits (left.toInt + right.toInt)
  | .checkSub => ¬InSigned w.bits (left.toInt - right.toInt)
  | .checkMul => ¬InSigned w.bits (left.toInt * right.toInt)

def reduceCheck (opcode : CheckOpcode) : Value w → Value w → Value w :=
  match opcode with
  | .checkAdd => reduceCheckAdd proc index
  | .checkSub => reduceCheckSub proc index
  | .checkMul => reduceCheckMul proc index

def Value.isCheck : Value w → Bool
  | .binary _ .checkAdd _ _ => true
  | .binary _ .checkSub _ _ => true
  | .binary _ .checkMul _ _ => true
  | _ => false

variable {proc : Procedure} {index : ℕ} {left right : Value w} {env : Environment}

variable {constant : BitVec w.bits}

theorem IntRange.Safe.mem_of_foldChecked {operation : ℕ → ℤ → ℤ → Option ℤ}
    {onIntegers : ℤ → ℤ → ℤ} (hsafe : IntRange.Safe operation onIntegers)
    (h : foldChecked operation left right = some constant) (env : Environment) :
    InSigned w.bits (onIntegers (left.eval env).toInt (right.eval env).toInt) := by
  obtain ⟨result, hres, -⟩ := Option.map_eq_some_iff.mp (foldConstant_eq_some env h)
  exact hsafe (inSigned_toInt _) (inSigned_toInt _) hres

section Dropped

variable (hleft : Consults StepGuard left 5) (hright : Consults StepGuard right 5)

include hleft hright

theorem sum_mem_of_reduceOrderedCheckAdd
    (h : (reduceOrderedCheckAdd proc index left right).isCheck = false) (env : Environment) :
    InSigned w.bits ((left.eval env).toInt + (right.eval env).toInt) := by
  unfold reduceOrderedCheckAdd at h
  split_ifs at h with hzero hrng
  · rw [Value.toInt_eval_of_isInt hzero, add_zero]
    exact inSigned_toInt _
  · rw [Bool.not_eq_true'] at hrng
    exact sum_mem hrng (contains_rangeFor hleft env) (contains_rangeFor hright env)
  · exact absurd h Bool.true_eq_false_eq_False

theorem sum_mem_of_reduceCheckAdd
    (h : (reduceCheckAdd proc index left right).isCheck = false) (env : Environment) :
    InSigned w.bits ((left.eval env).toInt + (right.eval env).toInt) := by
  unfold reduceCheckAdd at h
  cases hconst : checkAddConstant left right with
  | some constant => exact safe_safeAdd.mem_of_foldChecked hconst env
  | none =>
    simp only [hconst] at h
    rcases handleCommutativity_cases left right with hord | hord
    · rw [hord] at h
      exact sum_mem_of_reduceOrderedCheckAdd hleft hright h env
    · rw [hord] at h
      rw [add_comm]
      exact sum_mem_of_reduceOrderedCheckAdd hright hleft h env

theorem difference_mem_of_reduceCheckSub
    (h : (reduceCheckSub proc index left right).isCheck = false) (env : Environment) :
    InSigned w.bits ((left.eval env).toInt - (right.eval env).toInt) := by
  unfold reduceCheckSub at h
  cases hconst : checkSubConstant left right with
  | some constant => exact safe_safeSub.mem_of_foldChecked hconst env
  | none =>
    by_cases hzero : right.isInt 0
    · rw [Value.toInt_eval_of_isInt hzero, sub_zero]
      exact inSigned_toInt _
    · cases hnegated : checkNegConstant right with
      | some negatedConstant =>
        simp only [hconst, if_neg hzero, hnegated] at h
        exact absurd h Bool.true_eq_false_eq_False
      | none =>
        simp only [hconst, if_neg hzero, hnegated] at h
        split_ifs at h with hrng
        · rw [Bool.not_eq_true'] at hrng
          exact difference_mem hrng (contains_rangeFor hleft env) (contains_rangeFor hright env)
        · exact absurd h Bool.true_eq_false_eq_False

theorem product_mem_of_reduceOrderedCheckMul
    (h : (reduceOrderedCheckMul proc index left right).isCheck = false) (env : Environment) :
    InSigned w.bits ((left.eval env).toInt * (right.eval env).toInt) := by
  unfold reduceOrderedCheckMul at h
  split_ifs at h with hzero hone htwo hrng
  · rw [Value.toInt_eval_of_isInt hzero, mul_zero]
    exact InSigned.zero _
  · rw [Value.toInt_eval_of_isInt hone, mul_one]
    exact inSigned_toInt _
  · exact absurd h Bool.true_eq_false_eq_False
  · rw [Bool.not_eq_true'] at hrng
    exact product_mem hrng (contains_rangeFor hleft env) (contains_rangeFor hright env)
  · exact absurd h Bool.true_eq_false_eq_False

theorem product_mem_of_reduceCheckMul
    (h : (reduceCheckMul proc index left right).isCheck = false) (env : Environment) :
    InSigned w.bits ((left.eval env).toInt * (right.eval env).toInt) := by
  unfold reduceCheckMul at h
  cases hconst : checkMulConstant left right with
  | some constant => exact safe_safeMultiply.mem_of_foldChecked hconst env
  | none =>
    simp only [hconst] at h
    rcases handleCommutativity_cases left right with hord | hord
    · rw [hord] at h
      exact product_mem_of_reduceOrderedCheckMul hleft hright h env
    · rw [hord] at h
      rw [mul_comm]
      exact product_mem_of_reduceOrderedCheckMul hright hleft h env

end Dropped

/-- The steps of the analysis are sound exactly under the guards, and under them every value lies
in its range and a checked operation that is dropped cannot overflow. -/
theorem rangeFor_sound (w : Width) :
    (∀ value : Value w, (Consults StepSound value 5 ↔ Consults StepGuard value 5) ∧
      (Consults StepGuard value 5 → ∀ env, (rangeFor value 5).Contains (value.eval env).toInt)) ∧
    ∀ (proc : Procedure) (index : ℕ) (opcode : CheckOpcode) (left right : Value w),
      Consults StepGuard left 5 → Consults StepGuard right 5 →
        (reduceCheck proc index opcode left right).isCheck = false →
          ∀ env, ¬opcode.Overflows (left.eval env) (right.eval env) := by
  refine ⟨fun value => ⟨consults_stepSound_iff, contains_rangeFor⟩, ?_⟩
  intro proc index opcode left right hleft hright hdrop env
  cases opcode with
  | checkAdd => exact not_not_intro (sum_mem_of_reduceCheckAdd hleft hright hdrop env)
  | checkSub => exact not_not_intro (difference_mem_of_reduceCheckSub hleft hright hdrop env)
  | checkMul => exact not_not_intro (product_mem_of_reduceCheckMul hleft hright hdrop env)

end Checks

def emptyProcedure : Procedure := ⟨fun _ => none, id, fun _ => rfl⟩

def evenLeaf : Value .int32 := .binary 2 .bitAnd (.leaf 0) (.const 1 (-2))

def doubledLeaf : Value .int32 :=
  .shift 4 .shl (.binary 2 .bitAnd (.leaf 0) (.const 1 0x7fffffff)) (.const 3 1)

theorem rangeFor_unsound :
    ¬(rangeFor evenLeaf 5).Contains (evenLeaf.eval (constantEnvironment 4)).toInt ∧
    ¬(rangeFor doubledLeaf 5).Contains (doubledLeaf.eval (constantEnvironment 0x40000000)).toInt ∧
    (reduceCheck emptyProcedure 5 .checkAdd evenLeaf (.const 3 5)).isCheck = false ∧
    CheckOpcode.checkAdd.Overflows (w := .int32) (evenLeaf.eval (constantEnvironment 0x7ffffffe)) 5 := by
  refine ⟨?_, ?_, ?_, ?_⟩
  · unfold IntRange.Contains
    decide
  · unfold IntRange.Contains
    decide
  · decide
  · unfold CheckOpcode.Overflows
    decide

def maskedByte : Value .int32 := .binary 2 .bitAnd (.leaf 0) (.const 1 255)

def scaledNibble : Value .int32 :=
  .shift 6 .shl (.binary 5 .bitAnd (.leaf 3) (.const 4 15)) (.const 1 4)

theorem rangeFor_sound_maskedByte_scaledNibble : Consults StepSound scaledNibble 5 ∧
    (∀ env, (rangeFor scaledNibble 5).Contains (scaledNibble.eval env).toInt) ∧
    ∀ env, ¬CheckOpcode.checkAdd.Overflows (maskedByte.eval env) (scaledNibble.eval env) := by
  have hbyte : Consults StepGuard maskedByte 5 := by
    refine ⟨fun mask hmask => ?_, fun hranged => absurd hranged (by decide)⟩
    rw [← Option.some.inj hmask]
    exact .inr (by decide)
  have hnibble : Consults StepGuard scaledNibble 5 := by
    refine ⟨fun shiftAmount hamt => ?_, fun _ => ⟨fun mask hmask => ?_, fun hranged =>
      absurd hranged (by decide)⟩⟩
    · rw [← Option.some.inj hamt]
      exact .inl (by decide)
    · rw [← Option.some.inj hmask]
      exact .inr (by decide)
  obtain ⟨hrngs, hchecks⟩ := rangeFor_sound .int32
  refine ⟨(hrngs scaledNibble).1.mpr hnibble, (hrngs scaledNibble).2 hnibble, ?_⟩
  exact hchecks emptyProcedure 7 .checkAdd maskedByte scaledNibble hbyte hnibble (by decide)

end WebKit.B3
