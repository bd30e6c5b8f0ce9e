import WebKit.Foundation.Rescaling
import WebKit.WTF.CheckedArithmetic

/-!
Media times: rational times with a 64-bit numerator and a 32-bit time scale, and the
addition and subtraction of wtf/MediaTime.cpp. Times that hold a double are not modelled.
-/
namespace WebKit

open CheckedArithmetic Rescaling

structure MediaTime where
  timeValue : ℤ
  timeScale : ℤ
  valid : Bool
  hasBeenRounded : Bool
  positiveInfinite : Bool
  negativeInfinite : Bool
  indefinite : Bool
  deriving DecidableEq

namespace MediaTime

def MaximumTimeScale : ℤ := 0x7fffffff

def invalidTime : MediaTime := ⟨-1, 1, false, false, false, false, false⟩

def positiveInfiniteTime : MediaTime := ⟨0, 1, true, false, true, false, false⟩

def negativeInfiniteTime : MediaTime := ⟨-1, 1, true, false, false, true, false⟩

def indefiniteTime : MediaTime := ⟨0, 1, true, false, false, false, true⟩

def greatestCommonDivisor (a b : ℤ) : ℤ :=
  if b = 0 then a else greatestCommonDivisor b (a.tmod b)
termination_by b.natAbs
decreasing_by
  rw [Int.natAbs_tmod]
  exact Nat.mod_lt _ (by omega)

def leastCommonMultiple (a b : ℤ) : Option ℤ :=
  safeMultiply 32 a (b.tdiv (greatestCommonDivisor a b))

def commonTimeScale (a b : ℤ) : ℤ :=
  match leastCommonMultiple a b with
  | some scale => if scale > MaximumTimeScale then MaximumTimeScale else scale
  | none => MaximumTimeScale

def fitTimeScale (wholePart timeScale : ℤ) : ℤ × ℤ :=
  match _h : safeMultiply 64 wholePart timeScale with
  | some newWholePart => (newWholePart, timeScale)
  | none => fitTimeScale wholePart (timeScale.tdiv 2)
termination_by timeScale.natAbs
decreasing_by
  have hne : timeScale ≠ 0 := by
    rintro rfl
    simp [safeMultiply_zero] at _h
  rw [Int.natAbs_tdiv]
  exact Nat.div_lt_self (by omega) (by decide)

def wrap64 (x : ℤ) : ℤ := x.bmod (2 ^ 64)

def setTimeScale (time : MediaTime) (timeScale : ℤ) : MediaTime :=
  if timeScale = time.timeScale then time
  else
    let wholePart := time.timeValue.tdiv time.timeScale
    let fit := fitTimeScale wholePart (min MaximumTimeScale timeScale)
    let remainder := time.timeValue.tmod time.timeScale
    { time with
      timeValue := wrap64 (fit.1 + (remainder * fit.2).tdiv time.timeScale)
      timeScale := fit.2 }

variable (safeOperation : ℤ → ℤ → Option ℤ)

/-- The loop shared by `operator+` and `operator-`, which differ in the checked operation.
Halving a scale that is not positive never reaches one: the loop does not end. -/
def combineLoop (a b : MediaTime) (scale : ℤ) : Option MediaTime :=
  match safeOperation a.timeValue b.timeValue with
  | some value => some { a with timeValue := value }
  | none =>
    if scale = 1 then
      some (if a.timeValue > 0 then positiveInfiniteTime else negativeInfiniteTime)
    else if 1 < scale then
      combineLoop (setTimeScale a (scale.tdiv 2)) (setTimeScale b (scale.tdiv 2))
        (scale.tdiv 2)
    else none
termination_by scale.natAbs
decreasing_by
  rw [Int.natAbs_tdiv]
  exact Nat.div_lt_self (by omega) (by decide)

def combine (a b : MediaTime) : Option MediaTime :=
  let scale := commonTimeScale a.timeScale b.timeScale
  combineLoop safeOperation (setTimeScale a scale) (setTimeScale b scale) scale

def add (a b : MediaTime) : Option MediaTime :=
  if !b.valid || !a.valid then some invalidTime
  else if b.indefinite || a.indefinite then some indefiniteTime
  else if a.positiveInfinite && b.negativeInfinite then some invalidTime
  else if a.negativeInfinite && b.positiveInfinite then some invalidTime
  else if a.positiveInfinite || b.positiveInfinite then some positiveInfiniteTime
  else if a.negativeInfinite || b.negativeInfinite then some negativeInfiniteTime
  else combine (safeAdd 64) a b

def sub (a b : MediaTime) : Option MediaTime :=
  if !b.valid || !a.valid then some invalidTime
  else if b.indefinite || a.indefinite then some indefiniteTime
  else if a.positiveInfinite && b.positiveInfinite then some invalidTime
  else if a.negativeInfinite && b.negativeInfinite then some invalidTime
  else if a.positiveInfinite || b.negativeInfinite then some positiveInfiniteTime
  else if a.negativeInfinite || b.positiveInfinite then some negativeInfiniteTime
  else combine (safeSub 64) a b

structure IsNumber (time : MediaTime) : Prop where
  valid : time.valid = true
  not_positive : time.positiveInfinite = false
  not_negative : time.negativeInfinite = false
  not_indefinite : time.indefinite = false

variable {time : MediaTime}

theorem IsNumber.setValue (h : IsNumber time) (value : ℤ) :
    IsNumber { time with timeValue := value } := { h with }

structure IsFinite (time : MediaTime) : Prop extends IsNumber time where
  value_mem : InSigned 64 time.timeValue
  scale_pos : 0 < time.timeScale
  scale_le : time.timeScale ≤ MaximumTimeScale

def seconds (time : MediaTime) : ℚ := time.timeValue / time.timeScale

abbrev wholePart (time : MediaTime) : ℤ := time.timeValue.tdiv time.timeScale

abbrev numerator (time : MediaTime) (scale : ℤ) : ℤ := rescale time.timeValue time.timeScale scale

theorem add_eq_combine {a b : MediaTime} (ha : IsNumber a) (hb : IsNumber b) :
    add a b = combine (safeAdd 64) a b := by
  simp [add, ha.valid, hb.valid, ha.not_positive, hb.not_positive, ha.not_negative,
    hb.not_negative, ha.not_indefinite, hb.not_indefinite]

theorem sub_eq_combine {a b : MediaTime} (ha : IsNumber a) (hb : IsNumber b) :
    sub a b = combine (safeSub 64) a b := by
  simp [sub, ha.valid, hb.valid, ha.not_positive, hb.not_positive, ha.not_negative,
    hb.not_negative, ha.not_indefinite, hb.not_indefinite]

section CommonScale

variable {a b : ℤ}

theorem greatestCommonDivisor_eq_gcd (ha : 0 ≤ a) (hb : 0 ≤ b) :
    greatestCommonDivisor a b = Int.gcd a b := by
  fun_induction greatestCommonDivisor a b with
  | case1 a => simp [abs_of_nonneg ha]
  | case2 a b hne ih =>
    rw [ih hb (Int.tmod_nonneg _ ha), Int.gcd, Int.natAbs_tmod, Nat.gcd_comm, ← Nat.gcd_rec,
      Nat.gcd_comm, Int.gcd]

/-- The least common multiple of the scales where it is a 32-bit value, the greatest scale
otherwise. -/
theorem commonTimeScale_eq (ha : 0 < a) (hb : 0 < b) : commonTimeScale a b =
      if (Int.lcm a b : ℤ) ≤ MaximumTimeScale then (Int.lcm a b : ℤ) else MaximumTimeScale := by
  have hgcd : (0 : ℤ) < Int.gcd a b := by
    exact_mod_cast Int.gcd_pos_of_ne_zero_left b ha.ne'
  have hdvd : (Int.gcd a b : ℤ) ∣ b := Int.gcd_dvd_right ..
  have hlcm : a * (b / Int.gcd a b) = Int.lcm a b := by
    rw [← Int.mul_ediv_assoc _ hdvd, Int.lcm_eq_mul_div, ← Int.natAbs_mul]
    push_cast
    rw [abs_of_pos (mul_pos ha hb)]
  have hquot : 0 < b / Int.gcd a b := Int.ediv_pos_of_pos_of_dvd hb hgcd.le hdvd
  have hmax : signedMax 32 = MaximumTimeScale := by decide
  have hmin : signedMin 32 < 0 := signedMin_neg 32
  rw [commonTimeScale, leastCommonMultiple, greatestCommonDivisor_eq_gcd ha.le hb.le,
    Int.tdiv_eq_ediv_of_nonneg hb.le, safeMultiply_eq_of_pos 32 a hquot, hlcm]
  by_cases hfit : (Int.lcm a b : ℤ) ≤ MaximumTimeScale
  · have hin : InSigned 32 (Int.lcm a b) := ⟨by omega, by omega⟩
    simp only [if_pos hin, if_pos hfit, gt_iff_lt, hfit.not_gt, if_false]
  · have hout : ¬ InSigned 32 (Int.lcm a b) := fun h => hfit (hmax ▸ h.2)
    simp only [if_neg hout, if_neg hfit]

/-- The common scale is one that a time can have. -/
theorem commonTimeScale_bounds (ha : 0 < a) (hb : 0 < b) :
    0 < commonTimeScale a b ∧ commonTimeScale a b ≤ MaximumTimeScale ∧
      commonTimeScale a b ≤ Int.lcm a b := by
  have hpos : 0 < Int.lcm a b := Nat.pos_of_ne_zero (Int.lcm_ne_zero ha.ne' hb.ne')
  have hmax : 0 < MaximumTimeScale := by decide
  rw [commonTimeScale_eq ha hb]
  split_ifs <;> omega

end CommonScale

theorem int64_bounds : signedMin 64 = -2 ^ 63 ∧ signedMax 64 = 2 ^ 63 - 1 := by decide

theorem int63_bounds : signedMin 63 = -2 ^ 62 ∧ signedMax 63 = 2 ^ 62 - 1 := by decide

theorem wrap64_eq_self {x : ℤ} (h : InSigned 64 x) : wrap64 x = x := by
  obtain ⟨hmin, hmax⟩ := int64_bounds
  exact Int.bmod_eq_of_le (by omega) (by omega)

variable {scale : ℤ}

theorem half_eq (h : 0 ≤ scale) : scale.tdiv 2 = scale / 2 := Int.tdiv_eq_ediv_of_nonneg h

theorem ediv_pow_ediv (scale : ℤ) (i j : ℕ) : scale / 2 ^ i / 2 ^ j = scale / 2 ^ (i + j) := by
  rw [Int.ediv_ediv_of_nonneg (by positivity), pow_add]

theorem ediv_pow_anti (hpos : 0 ≤ scale) {i j : ℕ} (hle : i ≤ j) : scale / 2 ^ j ≤ scale / 2 ^ i := by
  rw [← Nat.add_sub_cancel' hle, ← ediv_pow_ediv]
  exact Int.ediv_le_self _ (Int.ediv_nonneg hpos (by positivity))

/-- What the halving loop of `setTimeScale` returns: some scale reached by halving at which
the whole part fits. -/
theorem fitTimeScale_spec (whole : ℤ) (hwhole : InSigned 64 whole) (hscale : 0 < scale) :
    (fitTimeScale whole scale).1 = whole * (fitTimeScale whole scale).2 ∧
      0 < (fitTimeScale whole scale).2 ∧ (fitTimeScale whole scale).2 ≤ scale := by
  fun_induction fitTimeScale whole scale with
  | case1 scale newWhole h =>
    rw [safeMultiply_eq_of_pos 64 whole hscale] at h
    split_ifs at h
    exact ⟨by simpa using h.symm, hscale, le_rfl⟩
  | case2 scale h ih =>
    have hhalf := half_eq hscale.le
    have hne : scale ≠ 1 := by
      rintro rfl
      rw [safeMultiply_eq_of_pos 64 whole hscale, mul_one, if_pos hwhole] at h
      cases h
    obtain ⟨hfst, hpos, hle⟩ := ih (by omega)
    exact ⟨hfst, hpos, by omega⟩

theorem fitTimeScale_of_fits {whole : ℤ} (hscale : 0 < scale) (h : InSigned 64 (whole * scale)) :
    fitTimeScale whole scale = (whole * scale, scale) := by
  have hsome := safeMultiply_eq_of_pos 64 whole hscale
  rw [if_pos h] at hsome
  rw [fitTimeScale]
  split
  · rename_i newWhole hnew
    rw [hsome] at hnew
    simpa using hnew.symm
  · rename_i hnone
    rw [hsome] at hnone
    cases hnone

/-- The loop that was started at an even larger scale goes through the halved scale. -/
theorem fitTimeScale_half {whole : ℤ} (hlt : (fitTimeScale whole scale).2 ≠ scale) :
    fitTimeScale whole (scale.tdiv 2) = fitTimeScale whole scale := by
  conv_rhs => rw [fitTimeScale]
  split
  · rename_i newWhole hnew
    refine absurd ?_ hlt
    rw [fitTimeScale]
    split
    · rfl
    · rename_i hnone
      rw [hnew] at hnone
      cases hnone
  · rfl

/-- The loop ends at the first halved scale at which the whole part fits. -/
theorem fitTimeScale_first {whole : ℤ} (hwhole : InSigned 64 whole) (hpos : 0 < scale) :
    (∃ k, (fitTimeScale whole scale).2 = scale / 2 ^ k) ∧
      InSigned 64 (whole * (fitTimeScale whole scale).2) ∧ ∀ j, InSigned 64 (whole * (scale / 2 ^ j)) →
        scale / 2 ^ j ≤ (fitTimeScale whole scale).2 := by
  fun_induction fitTimeScale whole scale with
  | case1 scale newWhole h =>
    rw [safeMultiply_eq_of_pos 64 whole hpos] at h
    split_ifs at h with hfits
    exact ⟨⟨0, by simp⟩, hfits, fun j _ => Int.ediv_le_self _ hpos.le⟩
  | case2 scale h ih =>
    have hhalf := half_eq hpos.le
    rw [safeMultiply_eq_of_pos 64 whole hpos, ite_eq_right_iff] at h
    have hfits : ¬ InSigned 64 (whole * scale) := fun hfits => Option.some_ne_none _ (h hfits)
    have hone : scale ≠ 1 := by
      rintro rfl
      exact hfits (by rwa [mul_one])
    have hshift (j : ℕ) : scale.tdiv 2 / 2 ^ j = scale / 2 ^ (j + 1) := by
      simpa only [hhalf, pow_one, add_comm] using ediv_pow_ediv scale 1 j
    obtain ⟨⟨k, hk⟩, hmem, hlast⟩ := ih (by omega)
    refine ⟨⟨k + 1, hk.trans (hshift k)⟩, hmem, fun j hj => ?_⟩
    cases j with
    | zero => exact absurd (by simpa using hj) hfits
    | succ j =>
      rw [← hshift] at hj ⊢
      exact hlast j hj

/-- The whole part fits after this many halvings of the scale, and not before. -/
def StopsAt (whole scale : ℤ) (halvings : ℕ) : Prop :=
  InSigned 64 (whole * (scale / 2 ^ halvings)) ∧
    ∀ fewer < halvings, ¬InSigned 64 (whole * (scale / 2 ^ fewer))

instance (whole scale : ℤ) (halvings : ℕ) : Decidable (StopsAt whole scale halvings) :=
  inferInstanceAs (Decidable (_ ∧ _))

section StopsAt

variable {whole : ℤ} {halvings fewer : ℕ} (h : StopsAt whole scale halvings)
include h

theorem StopsAt.fit_eq (hwhole : InSigned 64 whole) (hpos : 0 < scale) :
    (fitTimeScale whole scale).2 = scale / 2 ^ halvings := by
  obtain ⟨⟨k, hk⟩, hmem, hlast⟩ := fitTimeScale_first hwhole hpos
  have hle := hlast halvings h.1
  rw [hk] at hmem hle ⊢
  rcases lt_or_ge k halvings with hlt | hge
  · exact absurd hmem (h.2 k hlt)
  · exact le_antisymm (ediv_pow_anti hpos.le hge) hle

theorem StopsAt.scale_pos (hwhole : InSigned 64 whole) (hpos : 0 < scale) :
    0 < scale / 2 ^ halvings := by
  rw [← h.fit_eq hwhole hpos]
  exact (fitTimeScale_spec whole hwhole hpos).2.1

theorem StopsAt.of_halved (hle : fewer ≤ halvings) :
    StopsAt whole (scale / 2 ^ fewer) (halvings - fewer) := by
  refine ⟨?_, fun n hn => ?_⟩
  · rw [ediv_pow_ediv, Nat.add_sub_cancel' hle]
    exact h.1
  · rw [ediv_pow_ediv]
    exact h.2 _ (by omega)

theorem StopsAt.eq_zero (hfits : InSigned 64 (whole * scale)) : halvings = 0 := by
  by_contra hne
  exact h.2 0 (Nat.pos_of_ne_zero hne) (by simpa using hfits)

end StopsAt

section SetTimeScale

variable {time : MediaTime} {scale : ℤ}

theorem whole_mem (htime : IsFinite time) : InSigned 64 (time.timeValue.tdiv time.timeScale) := by
  obtain ⟨hmin, hmax⟩ := int64_bounds
  obtain ⟨hlow, hhigh⟩ := htime.value_mem
  have habs := Int.natAbs_tdiv_le_natAbs time.timeValue time.timeScale
  rcases le_or_gt 0 time.timeValue with hv | hv
  · have := Int.tdiv_nonneg hv htime.scale_pos.le
    constructor <;> omega
  · have hneg : time.timeValue.tdiv time.timeScale ≤ 0 := by
      have := Int.tdiv_nonneg (a := -time.timeValue) (by omega) htime.scale_pos.le
      rw [Int.neg_tdiv] at this
      omega
    constructor <;> omega

/-- The rescaled time has a positive scale, and the correctly rounded value whenever that
value is an int64. -/
theorem setTimeScale_spec (htime : IsFinite time) (hpos : 0 < scale)
    (hle : scale ≤ MaximumTimeScale) :
    0 < (setTimeScale time scale).timeScale ∧ (setTimeScale time scale).timeScale ≤ scale ∧
      (InSigned 64 (time.numerator (setTimeScale time scale).timeScale) →
        (setTimeScale time scale).timeValue =
          time.numerator (setTimeScale time scale).timeScale) := by
  by_cases hsame : scale = time.timeScale
  · subst hsame
    simp [setTimeScale, hpos, hpos.ne']
  · obtain ⟨hfst, hfit, hfitle⟩ := fitTimeScale_spec _ (whole_mem htime) hpos
    simp only [setTimeScale, if_neg hsame, min_eq_right hle]
    refine ⟨hfit, hfitle, fun hmem => ?_⟩
    rw [numerator, rescale_eq_whole_add _ htime.scale_pos hfit.le] at hmem ⊢
    rw [hfst]
    exact wrap64_eq_self hmem

theorem setTimeScale_value (htime : IsFinite time) (hpos : 0 < scale) (hle : scale ≤ MaximumTimeScale)
    {reached : ℤ} (hscale : (setTimeScale time scale).timeScale = reached)
    (hmem : InSigned 64 (time.numerator reached)) :
    (setTimeScale time scale).timeValue = time.numerator reached := by
  subst hscale
  exact (setTimeScale_spec htime hpos hle).2.2 hmem

theorem setTimeScale_flags (time : MediaTime) (scale : ℤ) (h : IsNumber time) :
    IsNumber (setTimeScale time scale) := by
  unfold setTimeScale
  split
  · exact h
  · exact { h with }

theorem whole_mul_mem (htime : IsFinite time) (hpos : 0 < scale)
    (hmem : InSigned 64 (time.numerator scale)) :
    InSigned 64 (time.timeValue.tdiv time.timeScale * scale) := by
  obtain ⟨hmin, hmax⟩ := int64_bounds
  unfold numerator at hmem
  rcases le_or_gt 0 time.timeValue with hv | hv
  · have := whole_mul_nonneg_le hv htime.scale_pos hpos.le
    constructor <;> omega
  · have := whole_mul_nonneg_le (v := -time.timeValue) (by omega) htime.scale_pos hpos.le
    rw [rescale_neg, Int.neg_tdiv, neg_mul] at this
    constructor <;> omega

/-- A rescaling whose exact value is an int64 never changes the requested scale. -/
theorem setTimeScale_scale_of_fits (htime : IsFinite time) (hpos : 0 < scale)
    (hle : scale ≤ MaximumTimeScale)
    (hmem : InSigned 64 (time.numerator scale)) :
    (setTimeScale time scale).timeScale = scale := by
  by_cases hsame : scale = time.timeScale
  · simp [setTimeScale, hsame]
  · have hwhole := whole_mul_mem htime hpos hmem
    simp [setTimeScale, hsame, min_eq_right hle, fitTimeScale_of_fits hpos hwhole]

/-- The scale a rescaling ends at is the one its halving loop finds. -/
theorem setTimeScale_scale_eq (htime : IsFinite time) (hpos : 0 < scale)
    (hle : scale ≤ MaximumTimeScale) :
    (setTimeScale time scale).timeScale =
      (fitTimeScale (time.timeValue.tdiv time.timeScale) scale).2 := by
  by_cases hsame : scale = time.timeScale
  · have hmem : InSigned 64 (time.numerator scale) := by
      rw [hsame, numerator, rescale_self _ htime.scale_pos.ne']
      exact htime.value_mem
    rw [setTimeScale_scale_of_fits htime hpos hle hmem,
      fitTimeScale_of_fits hpos (whole_mul_mem htime hpos hmem)]
  · simp [setTimeScale, hsame, min_eq_right hle]

theorem setTimeScale_scale_of_stopsAt (htime : IsFinite time) (hpos : 0 < scale)
    (hle : scale ≤ MaximumTimeScale) {halvings : ℕ} (h : StopsAt time.wholePart scale halvings) :
    (setTimeScale time scale).timeScale = scale / 2 ^ halvings := by
  rw [setTimeScale_scale_eq htime hpos hle, h.fit_eq (whole_mem htime) hpos]

end SetTimeScale

/-- The results that a checked operation accepts. A subtraction refuses the least int64. -/
def Accepted (sign result : ℤ) : Prop :=
  InSigned 64 result ∧ (sign = -1 → result ≠ signedMin 64)
  deriving Decidable

/-- A checked operation that computes `l + sign * r`. -/
structure Checks (safeOperation : ℤ → ℤ → Option ℤ) (sign : ℤ) : Prop where
  sign_eq : sign = 1 ∨ sign = -1
  accepts : ∀ {l r : ℤ}, InSigned 64 l → InSigned 64 r → Accepted sign (l + sign * r) →
    safeOperation l r = some (l + sign * r)
  refuses : ∀ {l r : ℤ}, InSigned 64 l → InSigned 64 r → ¬Accepted sign (l + sign * r) →
    safeOperation l r = none

theorem safeAdd_checks : Checks (safeAdd 64) 1 := by
  refine ⟨.inl rfl, fun hl hr h => ?_, fun hl hr h => ?_⟩
  · rw [one_mul] at h ⊢
    rw [safeAdd_eq hl hr, if_pos h.1]
  · rw [one_mul] at h
    rw [safeAdd_eq hl hr, if_neg fun hmem => h ⟨hmem, fun hsign => absurd hsign (by decide)⟩]

theorem safeSub_checks : Checks (safeSub 64) (-1) := by
  refine ⟨.inr rfl, fun hl hr h => ?_, fun hl hr h => ?_⟩
  · rw [neg_one_mul, ← sub_eq_add_neg] at h ⊢
    rw [safeSub_eq hl hr, if_pos ⟨lt_of_le_of_ne h.1.1 (h.2 rfl).symm, h.1.2⟩]
  · rw [neg_one_mul, ← sub_eq_add_neg] at h
    rw [safeSub_eq hl hr, if_neg fun hmem => h ⟨⟨hmem.1.le, hmem.2⟩, fun _ => hmem.1.ne'⟩]

theorem inSigned_of_half {x : ℤ} (h : InSigned 63 x) : InSigned 64 x := by
  obtain ⟨hmin, hmax⟩ := int64_bounds
  obtain ⟨hmin', hmax'⟩ := int63_bounds
  constructor <;> omega

/-- Operands that have lost a bit are never refused. -/
theorem accepted_of_half {sign l r : ℤ} (hsign : sign = 1 ∨ sign = -1) (hl : InSigned 63 l)
    (hr : InSigned 63 r) : Accepted sign (l + sign * r) := by
  obtain ⟨hmin, hmax⟩ := int64_bounds
  obtain ⟨hmin', hmax'⟩ := int63_bounds
  rcases hsign with rfl | rfl
  · exact ⟨⟨by omega, by omega⟩, fun _ => by omega⟩
  · exact ⟨⟨by omega, by omega⟩, fun _ => by omega⟩

/-- The result is a number within two units of its own scale, or an infinity on the side on
which the exact result leaves the whole seconds an int64 can hold. -/
def Approximates (result : MediaTime) (exact : ℚ) : Prop :=
  IsNumber result ∧ |seconds result - exact| ≤ 2 / result.timeScale ∨
  result = positiveInfiniteTime ∧ (signedMax 64 : ℚ) < exact ∨
  result = negativeInfiniteTime ∧ exact < (signedMin 64 : ℚ)

/-- The least common multiple of the scales has 31 bits, and over it both operands and the
result are int64 values. -/
def FitsExactly (sign : ℤ) (a b : MediaTime) : Prop :=
  let scale : ℤ := Int.lcm a.timeScale b.timeScale
  let left := rescale a.timeValue a.timeScale scale
  let right := rescale b.timeValue b.timeScale scale
  scale ≤ MaximumTimeScale ∧ InSigned 64 left ∧ InSigned 64 right ∧
    InSigned 64 (left + sign * right)

/-- The operation ends with a result close to `a + sign * b`, which is exact where nothing
has to be rounded. -/
def Faithful (sign : ℤ) (a b : MediaTime) (outcome : Option MediaTime) : Prop :=
  ∃ result, outcome = some result ∧ Approximates result (seconds a + sign * seconds b) ∧
    (FitsExactly sign a b →
      IsNumber result ∧ seconds result = seconds a + sign * seconds b)

/-- The numerator over the scale the time stops at, and its roundings over the halves of that
scale, one after the other. -/
def stepped (time : MediaTime) (scale : ℤ) (stop : ℕ) : ℕ → ℤ
  | 0 => time.numerator (scale / 2 ^ stop)
  | n + 1 => rescale (stepped time scale stop n) (scale / 2 ^ (stop + n))
      (scale / 2 ^ (stop + (n + 1)))

section Undisturbed

variable (sign : ℤ) (a b : MediaTime) (scale : ℤ) (left right round : ℕ)

def steppedSum : ℤ :=
  a.stepped scale left (round - left) + sign * b.stepped scale right (round - right)

/-- The operands, rounded step by step, are what one rounding gives. -/
def RoundedOnce : Prop :=
  a.stepped scale left (round - left) = a.numerator (scale / 2 ^ round) ∧
    b.stepped scale right (round - right) = b.numerator (scale / 2 ^ round)
  deriving Decidable

/-- The round ends with an accepted result or with the right infinity, or the operands overflow
and the next round is free of errors. -/
def EndsWell : Prop :=
  RoundedOnce a b scale left right round ∧
      (Accepted sign (steppedSum sign a b scale left right round) ∨
        ¬InSigned 64 (steppedSum sign a b scale left right round) ∧ scale / 2 ^ round = 1 ∧
          a.wholePart ≠ 0) ∨
    ¬InSigned 64 (steppedSum sign a b scale left right round) ∧ 1 < scale / 2 ^ round ∧
      RoundedOnce a b scale left right (round + 1)
  deriving Decidable

/-- The operands are int64 values at the scales they stop at. While the scales differ nothing is
accepted, and the first round with one scale ends well. -/
structure Undisturbed : Prop where
  left_stops : StopsAt a.wholePart scale left
  right_stops : StopsAt b.wholePart scale right
  left_mem : InSigned 64 (a.numerator (scale / 2 ^ left))
  right_mem : InSigned 64 (b.numerator (scale / 2 ^ right))
  refused : left ≠ right → ∀ round < max left right,
    ¬Accepted sign (steppedSum sign a b scale left right round)
  endsWell : EndsWell sign a b scale left right (max left right)

/-- The operands stop at different scales and are added all the same, the right one with at least
eight units. -/
structure AddedApart : Prop where
  left_stops : StopsAt a.wholePart scale left
  right_stops : StopsAt b.wholePart scale right
  left_mem : InSigned 64 (a.numerator (scale / 2 ^ left))
  right_mem : InSigned 64 (b.numerator (scale / 2 ^ right))
  scales_ne : scale / 2 ^ left ≠ scale / 2 ^ right
  accepted : Accepted sign (a.numerator (scale / 2 ^ left) + sign * b.numerator (scale / 2 ^ right))
  large : 8 ≤ |b.numerator (scale / 2 ^ right)|

end Undisturbed

theorem abs_rescale_sub_lt (htime : IsFinite time) (hscale : 0 < scale) :
    |(time.numerator scale : ℚ) - seconds time * scale| < 1 := by
  have hs : (0 : ℚ) < time.timeScale := by exact_mod_cast htime.scale_pos
  have hbound : |(time.numerator scale : ℚ) * time.timeScale -
      time.timeValue * scale| < time.timeScale := by
    exact_mod_cast abs_rescale_mul_sub_lt time.timeValue htime.scale_pos hscale.le
  have heq : (time.numerator scale : ℚ) - seconds time * scale =
      ((time.numerator scale : ℚ) * time.timeScale -
        time.timeValue * scale) / time.timeScale := by
    rw [seconds]
    field_simp
  rw [heq, abs_div, abs_of_pos hs, div_lt_one hs]
  exact hbound

theorem rescale_eq_of_dvd (htime : IsFinite time) (h : time.timeScale ∣ scale) :
    (time.numerator scale : ℚ) = seconds time * scale := by
  have hs : (time.timeScale : ℚ) ≠ 0 := by exact_mod_cast htime.scale_pos.ne'
  have heq : (time.numerator scale : ℚ) * time.timeScale =
      time.timeValue * scale := by
    exact_mod_cast Int.tdiv_mul_cancel (h.mul_left time.timeValue)
  rw [seconds]
  field_simp
  exact heq

/-- Two numerators within one unit give a sum within two units. -/
theorem abs_combined_sub_le {sign : ℤ} (hsign : sign = 1 ∨ sign = -1) {x y l r s : ℚ}
    (hs : 0 < s) (hl : |l - x * s| < 1) (hr : |r - y * s| < 1) :
    |(l + sign * r) / s - (x + sign * y)| ≤ 2 / s := by
  have heq : (l + sign * r) / s - (x + sign * y) = ((l - x * s) + sign * (r - y * s)) / s := by
    field_simp
    ring
  rw [heq, abs_div, abs_of_pos hs]
  have hone : |(sign : ℚ)| = 1 := by
    rcases hsign with rfl | rfl <;> simp
  gcongr
  calc |(l - x * s) + sign * (r - y * s)|
      ≤ |l - x * s| + |(sign : ℚ) * (r - y * s)| := abs_add_le _ _
    _ = |l - x * s| + |r - y * s| := by rw [abs_mul, hone, one_mul]
    _ ≤ 2 := by linarith

section Combine

variable {op : ℤ → ℤ → Option ℤ} {sign : ℤ} {a b : MediaTime} {scale : ℤ}

theorem combineLoop_of_some {value : ℤ} (h : op a.timeValue b.timeValue = some value) :
    combineLoop op a b scale = some { a with timeValue := value } := by
  rw [combineLoop, h]

theorem combineLoop_of_none (h : op a.timeValue b.timeValue = none) (hscale : 1 < scale) :
    combineLoop op a b scale = combineLoop op (setTimeScale a (scale.tdiv 2))
        (setTimeScale b (scale.tdiv 2)) (scale.tdiv 2) := by
  rw [combineLoop, h]
  simp [hscale.ne', hscale]

/-- What the time has become in a round of the loop. -/
structure InRound (time : MediaTime) (scale : ℤ) (stop round : ℕ) (current : MediaTime) : Prop where
  finite : IsFinite current
  scale_eq : current.timeScale = scale / 2 ^ max stop round
  value_eq : current.timeValue = time.stepped scale stop (round - stop)
  half_mem : stop < round → InSigned 63 current.timeValue

/-- At half the scale or less the numerator loses a bit. -/
theorem rescale_half_mem {v s t : ℤ} (hv : InSigned 64 v) (hs : 0 < s) (ht : 0 ≤ t)
    (hhalf : 2 * t ≤ s) : InSigned 63 (rescale v s t) := by
  obtain ⟨hmin, hmax⟩ := int64_bounds
  obtain ⟨hmin', hmax'⟩ := int63_bounds
  rcases le_or_gt 0 v with hnonneg | hneg
  · have hle := two_mul_rescale_le hnonneg hs ht hhalf
    have hge := rescale_nonneg hnonneg hs.le ht
    constructor <;> omega
  · have hle := two_mul_rescale_le (v := -v) (by omega) hs ht hhalf
    have hge := rescale_nonneg (v := -v) (by omega) hs.le ht
    rw [rescale_neg] at hle hge
    constructor <;> omega

section Rounds

variable {time current : MediaTime} {stop round : ℕ}

/-- From the round at whose scale it stops the time is halved with the scale. -/
theorem InRound.half_of_le (h : InRound time scale stop round current) (hge : stop ≤ round)
    (hgt : 1 < scale / 2 ^ round) :
    InRound time scale stop (round + 1) (setTimeScale current ((scale / 2 ^ round).tdiv 2)) := by
  have hhalf := half_eq (hgt.le.trans' zero_le_one)
  have hhalf' : scale / 2 ^ round / 2 = scale / 2 ^ (round + 1) := by
    rw [← ediv_pow_ediv, pow_one]
  have hscale := h.scale_eq
  rw [max_eq_right hge] at hscale
  have hmem := rescale_half_mem h.finite.value_mem h.finite.scale_pos
    (by omega : 0 ≤ scale / 2 ^ (round + 1)) (by omega)
  have hlast := h.finite.scale_le
  have hkept := setTimeScale_scale_of_fits h.finite (by omega : 0 < scale / 2 ^ (round + 1))
    (by omega) (inSigned_of_half hmem)
  have hval := setTimeScale_value h.finite (by omega) (by omega) hkept (inSigned_of_half hmem)
  rw [hhalf, hhalf']
  refine ⟨⟨setTimeScale_flags _ _ h.finite.toIsNumber, ?_, ?_, ?_⟩, ?_, ?_, fun _ => ?_⟩
  · rw [hval]
    exact inSigned_of_half hmem
  · omega
  · omega
  · rw [hkept, max_eq_right (by omega)]
  · obtain ⟨n, rfl⟩ := Nat.exists_eq_add_of_le hge
    have hsteps := h.value_eq
    rw [Nat.add_sub_cancel_left] at hsteps
    rw [hval, numerator, hsteps, hscale, Nat.add_assoc, Nat.add_sub_cancel_left, stepped]
  · rwa [hval]

variable (htime : IsFinite time) (hpos : 0 < scale) (hle : scale ≤ MaximumTimeScale)
  (hstops : StopsAt time.wholePart scale stop)
include htime hpos hle hstops

theorem inRound_zero (hmem : InSigned 64 (time.numerator (scale / 2 ^ stop))) :
    InRound time scale stop 0 (setTimeScale time scale) := by
  have hscale := setTimeScale_scale_of_stopsAt htime hpos hle hstops
  have hval := setTimeScale_value htime hpos hle hscale hmem
  have hspec := setTimeScale_spec htime hpos hle
  refine ⟨⟨setTimeScale_flags time scale htime.toIsNumber, ?_, hspec.1, hspec.2.1.trans hle⟩, ?_, ?_,
    by simp⟩
  · rwa [hval]
  · rw [hscale, Nat.max_zero]
  · rw [hval, Nat.zero_sub, stepped]

/-- Before that round the time is left as it is. -/
theorem InRound.half_of_lt (h : InRound time scale stop round current) (hlt : round < stop) :
    InRound time scale stop (round + 1) (setTimeScale current ((scale / 2 ^ round).tdiv 2)) := by
  have hstopPos := hstops.scale_pos (whole_mem htime) hpos
  have hhalf : (scale / 2 ^ round).tdiv 2 = scale / 2 ^ (round + 1) := by
    rw [half_eq (Int.ediv_nonneg hpos.le (by positivity)), ← ediv_pow_ediv, pow_one]
  have hscale := h.scale_eq
  have hval := h.value_eq
  rw [max_eq_left hlt.le] at hscale
  rw [Nat.sub_eq_zero_of_le hlt.le, stepped] at hval
  have hwhole : current.wholePart = time.wholePart := by
    rw [wholePart, hval, hscale, numerator, rescale_tdiv _ htime.scale_pos hstopPos]
  have hnext : 0 < scale / 2 ^ (round + 1) :=
    hstopPos.trans_le (ediv_pow_anti hpos.le (Nat.succ_le_of_lt hlt))
  have hnextLe : scale / 2 ^ (round + 1) ≤ MaximumTimeScale := (Int.ediv_le_self _ hpos.le).trans hle
  have hkept := setTimeScale_scale_of_stopsAt h.finite hnext hnextLe
    (hwhole ▸ hstops.of_halved (Nat.succ_le_of_lt hlt))
  rw [ediv_pow_ediv, Nat.add_sub_cancel' (Nat.succ_le_of_lt hlt)] at hkept
  have hself : current.numerator (scale / 2 ^ stop) = current.timeValue := by
    rw [numerator, ← hscale, rescale_self _ h.finite.scale_pos.ne']
  have hkeptVal := setTimeScale_value h.finite hnext hnextLe hkept (hself ▸ h.finite.value_mem)
  rw [hself] at hkeptVal
  rw [hhalf]
  refine ⟨⟨setTimeScale_flags _ _ h.finite.toIsNumber, ?_, ?_, ?_⟩, ?_, ?_, fun hlt' => ?_⟩
  · rw [hkeptVal]
    exact h.finite.value_mem
  · rwa [hkept]
  · rw [hkept, ← hscale]
    exact h.finite.scale_le
  · rw [hkept, max_eq_left (by omega)]
  · rw [hkeptVal, hval, Nat.sub_eq_zero_of_le (by omega), stepped]
  · omega

theorem InRound.half (h : InRound time scale stop round current) (hgt : 1 < scale / 2 ^ round) :
    InRound time scale stop (round + 1) (setTimeScale current ((scale / 2 ^ round).tdiv 2)) := by
  rcases lt_or_ge round stop with hlt | hge
  · exact h.half_of_lt htime hpos hle hstops hlt
  · exact h.half_of_le hge hgt

end Rounds

/-- The loop has come to a round with these operands. -/
structure Reaches (op : ℤ → ℤ → Option ℤ) (a b : MediaTime) (scale : ℤ) (left right round : ℕ)
    (l r : MediaTime) : Prop where
  left_inRound : InRound a scale left round l
  right_inRound : InRound b scale right round r
  combine_eq : combine op a b = combineLoop op l r (scale / 2 ^ round)

variable {left right round : ℕ} {l r : MediaTime}

theorem commonTimeScale_eq_min (ha : IsFinite a) (hb : IsFinite b) :
    commonTimeScale a.timeScale b.timeScale =
      min (Int.lcm a.timeScale b.timeScale : ℤ) MaximumTimeScale := by
  rw [commonTimeScale_eq ha.scale_pos hb.scale_pos]
  split_ifs <;> omega

section Loop

variable (ha : IsFinite a) (hb : IsFinite b)
  (hscale : scale = commonTimeScale a.timeScale b.timeScale)
  (h : Undisturbed sign a b scale left right)
include ha hb hscale h

theorem Undisturbed.reaches_zero : Reaches op a b scale left right 0
    (setTimeScale a scale) (setTimeScale b scale) := by
  obtain ⟨hcpos, hcle, -⟩ := commonTimeScale_bounds ha.scale_pos hb.scale_pos
  rw [← hscale] at hcpos hcle
  refine ⟨inRound_zero ha hcpos hcle h.left_stops h.left_mem,
    inRound_zero hb hcpos hcle h.right_stops h.right_mem, ?_⟩
  rw [combine, ← hscale, pow_zero, Int.ediv_one]

theorem Undisturbed.scale_pos : 0 < scale / 2 ^ max left right := by
  obtain ⟨hcpos, -, -⟩ := commonTimeScale_bounds ha.scale_pos hb.scale_pos
  rw [← hscale] at hcpos
  rcases max_choice left right with heq | heq <;> rw [heq]
  · exact h.left_stops.scale_pos (whole_mem ha) hcpos
  · exact h.right_stops.scale_pos (whole_mem hb) hcpos

theorem Undisturbed.stops_of_fitsExactly (hfits : FitsExactly sign a b) :
    scale = Int.lcm a.timeScale b.timeScale ∧ left = 0 ∧ right = 0 := by
  obtain ⟨hlcm, hleft, hright, -⟩ := hfits
  obtain ⟨hcpos, -, -⟩ := commonTimeScale_bounds ha.scale_pos hb.scale_pos
  rw [← hscale] at hcpos
  rw [commonTimeScale_eq_min ha hb, min_eq_left hlcm] at hscale
  rw [← hscale] at hleft hright
  exact ⟨hscale, h.left_stops.eq_zero (whole_mul_mem ha hcpos hleft),
    h.right_stops.eq_zero (whole_mul_mem hb hcpos hright)⟩

theorem Undisturbed.not_fitsExactly
    (hout : ¬InSigned 64 (steppedSum sign a b scale left right (max left right))) :
    ¬FitsExactly sign a b := by
  intro hfits
  obtain ⟨rfl, rfl, rfl⟩ := h.stops_of_fitsExactly ha hb hscale hfits
  exact hout (by simpa [steppedSum, stepped] using hfits.2.2.2)

variable (hop : Checks op sign)
include hop

theorem Undisturbed.reaches_succ (hr : Reaches op a b scale left right round l r)
    (hout : ¬Accepted sign (steppedSum sign a b scale left right round))
    (hgt : 1 < scale / 2 ^ round) :
    Reaches op a b scale left right (round + 1) (setTimeScale l ((scale / 2 ^ round).tdiv 2))
      (setTimeScale r ((scale / 2 ^ round).tdiv 2)) := by
  obtain ⟨hcpos, hcle, -⟩ := commonTimeScale_bounds ha.scale_pos hb.scale_pos
  rw [← hscale] at hcpos hcle
  obtain ⟨hl, hr, heq⟩ := hr
  have hnone : op l.timeValue r.timeValue = none := by
    refine hop.refuses hl.finite.value_mem hr.finite.value_mem ?_
    rwa [hl.value_eq, hr.value_eq]
  refine ⟨hl.half ha hcpos hcle h.left_stops hgt, hr.half hb hcpos hcle h.right_stops hgt, ?_⟩
  rw [heq, combineLoop_of_none hnone hgt, half_eq (by omega), ← ediv_pow_ediv, pow_one]

theorem Undisturbed.reaches_max (hle : round ≤ max left right)
    (hout : ∀ round < max left right, ¬Accepted sign (steppedSum sign a b scale left right round)) :
    ∃ l r, Reaches op a b scale left right round l r := by
  induction round with
  | zero => exact ⟨_, _, h.reaches_zero ha hb hscale⟩
  | succ round ih =>
    obtain ⟨l, r, hr⟩ := ih (by omega)
    have hpos := (commonTimeScale_bounds ha.scale_pos hb.scale_pos).1
    rw [← hscale] at hpos
    have hnext := (h.scale_pos ha hb hscale).trans_le (ediv_pow_anti hpos.le hle)
    have hgt : 1 < scale / 2 ^ round := by
      rw [← ediv_pow_ediv, pow_one] at hnext
      omega
    exact ⟨_, _, h.reaches_succ ha hb hscale hop hr (hout round (by omega)) hgt⟩

/-- The loop ends up with both operands at one scale: at once if they stop at the same, in the
later of the rounds they stop in if they do not. -/
theorem Undisturbed.reaches_together : ∃ round l r, Reaches op a b scale left right round l r ∧
    l.timeScale = scale / 2 ^ max left right ∧
    l.timeValue = a.stepped scale left (max left right - left) ∧
    r.timeValue = b.stepped scale right (max left right - right) := by
  rcases eq_or_ne left right with rfl | hne
  · have hzero : Reaches op a b scale left left 0 _ _ := h.reaches_zero ha hb hscale
    refine ⟨_, _, _, hzero, ?_, ?_, ?_⟩
    · rw [hzero.left_inRound.scale_eq, Nat.max_zero, max_self]
    · rw [hzero.left_inRound.value_eq, max_self, Nat.sub_self, Nat.zero_sub]
    · rw [hzero.right_inRound.value_eq, max_self, Nat.sub_self, Nat.zero_sub]
  · obtain ⟨l, r, hreach⟩ := h.reaches_max ha hb hscale hop le_rfl (h.refused hne)
    refine ⟨_, _, _, hreach, ?_, hreach.left_inRound.value_eq, hreach.right_inRound.value_eq⟩
    rw [hreach.left_inRound.scale_eq, ← max_assoc, max_self]

theorem Undisturbed.reaches_max_of_refused
    (hout : ¬InSigned 64 (steppedSum sign a b scale left right (max left right))) :
    ∃ l r, Reaches op a b scale left right (max left right) l r := by
  refine h.reaches_max ha hb hscale hop le_rfl ?_
  rcases eq_or_ne left right with rfl | hne
  · intro round hlt hacc
    rw [max_self] at hlt hout
    refine hout ?_
    rw [steppedSum, Nat.sub_self]
    simpa only [steppedSum, Nat.sub_eq_zero_of_le hlt.le] using hacc.1
  · exact h.refused hne

end Loop

theorem rescale_one_le_seconds (htime : IsFinite time) (h : 0 < time.numerator 1) :
    (time.numerator 1 : ℚ) ≤ seconds time := by
  have hs : (0 : ℚ) < time.timeScale := by exact_mod_cast htime.scale_pos
  have hv := nonneg_of_rescale_pos htime.scale_pos.le zero_le_one h
  rw [seconds, le_div_iff₀ hs]
  exact_mod_cast (rescale_mul_le hv htime.scale_pos zero_le_one).trans_eq (mul_one _)

theorem seconds_le_rescale_one (htime : IsFinite time) (h : time.numerator 1 < 0) :
    seconds time ≤ (time.numerator 1 : ℚ) := by
  have hs : (0 : ℚ) < time.timeScale := by exact_mod_cast htime.scale_pos
  unfold numerator at h ⊢
  have hneg : 0 < rescale (-time.timeValue) time.timeScale 1 := by
    rw [rescale_neg]
    omega
  have hv := nonneg_of_rescale_pos htime.scale_pos.le zero_le_one hneg
  have hmul := rescale_mul_le hv htime.scale_pos zero_le_one
  rw [rescale_neg, mul_one] at hmul
  rw [seconds, div_le_iff₀ hs]
  exact_mod_cast (by linarith : time.timeValue ≤
    time.numerator 1 * time.timeScale)

/-- Whole seconds that overflow lie outside the int64 range on the side of the left
operand's sign, and so does the exact result. -/
theorem seconds_out_of_range (hsign : sign = 1 ∨ sign = -1) (ha : IsFinite a) (hb : IsFinite b)
    (hleft : InSigned 64 (a.numerator 1))
    (hright : InSigned 64 (b.numerator 1))
    (hne : a.numerator 1 ≠ 0)
    (hout : ¬ InSigned 64 (a.numerator 1 +
      sign * b.numerator 1)) :
    (0 < a.numerator 1 → signedMax 64 < seconds a + sign * seconds b) ∧
    (¬ 0 < a.numerator 1 → seconds a + sign * seconds b < signedMin 64) := by
  obtain ⟨hmin, hmax⟩ := int64_bounds
  have hale := rescale_one_le_seconds ha
  have hage := seconds_le_rescale_one ha
  have hble := rescale_one_le_seconds hb
  have hbge := seconds_le_rescale_one hb
  generalize a.numerator 1 = l at *
  generalize b.numerator 1 = r at *
  have hside : (0 < sign * r → (sign * r : ℚ) ≤ sign * seconds b) ∧
      (sign * r < 0 → (sign * seconds b : ℚ) ≤ sign * r) := by
    rcases hsign with rfl | rfl
    · simpa using ⟨hble, hbge⟩
    · simpa using ⟨hbge, hble⟩
  have hrng : -2 ^ 63 ≤ sign * r ∧ sign * r ≤ 2 ^ 63 := by
    rcases hsign with rfl | rfl <;> omega
  refine ⟨fun hpos => ?_, fun hnonpos => ?_⟩
  · have hover : (signedMax 64 : ℚ) < l + sign * r := by
      exact_mod_cast (by omega : signedMax 64 < l + sign * r)
    linarith [hale hpos, hside.1 (by omega)]
  · have hover : (l + sign * r : ℚ) < signedMin 64 := by
      exact_mod_cast (by omega : l + sign * r < signedMin 64)
    linarith [hage (by omega), hside.2 (by omega)]

section

variable (hop : Checks op sign) (ha : IsFinite a) (hb : IsFinite b)
include hop ha hb

theorem Reaches.approximates_of_accepted {reached : ℤ}
    (hreach : Reaches op a b scale left right round l r) (hreached : l.timeScale = reached)
    (hlval : l.timeValue = a.numerator reached) (hrval : r.timeValue = b.numerator reached)
    (hacc : Accepted sign (l.timeValue + sign * r.timeValue)) :
    ∃ result, combine op a b = some result ∧ IsNumber result ∧ result.timeScale = reached ∧
      result.timeValue = a.numerator reached + sign * b.numerator reached ∧
      |seconds result - (seconds a + sign * seconds b)| ≤ 2 / result.timeScale := by
  obtain ⟨hl, hr, heq⟩ := hreach
  have hpos : 0 < reached := hreached ▸ hl.finite.scale_pos
  have hsome := hop.accepts hl.finite.value_mem hr.finite.value_mem hacc
  refine ⟨_, heq.trans (combineLoop_of_some hsome), hl.finite.toIsNumber.setValue _, hreached,
    by rw [hlval, hrval], ?_⟩
  rw [hlval, hrval]
  have hq : (0 : ℚ) < reached := by exact_mod_cast hpos
  simpa only [seconds, hreached, Int.cast_add, Int.cast_mul] using
    abs_combined_sub_le hop.sign_eq hq (abs_rescale_sub_lt ha hpos) (abs_rescale_sub_lt hb hpos)

variable (hscale : scale = commonTimeScale a.timeScale b.timeScale)
  (h : Undisturbed sign a b scale left right)
include hscale h

theorem Undisturbed.faithful_of_accepted
    (honce : RoundedOnce a b scale left right (max left right))
    (hacc : Accepted sign (steppedSum sign a b scale left right (max left right))) :
    Faithful sign a b (combine op a b) := by
  obtain ⟨round, l, r, hreach, hreached, hl, hr⟩ := h.reaches_together ha hb hscale hop
  obtain ⟨result, heq, hnum, hscaleEq, hval, hclose⟩ := hreach.approximates_of_accepted hop ha hb
    hreached (hl.trans honce.1) (hr.trans honce.2) (by rw [hl, hr]; exact hacc)
  refine ⟨result, heq, .inl ⟨hnum, hclose⟩, fun hfits => ⟨hnum, ?_⟩⟩
  obtain ⟨hlcm, rfl, rfl⟩ := h.stops_of_fitsExactly ha hb hscale hfits
  have hl := rescale_eq_of_dvd ha (hlcm ▸ Int.dvd_lcm_left a.timeScale b.timeScale)
  have hr := rescale_eq_of_dvd hb (hlcm ▸ Int.dvd_lcm_right a.timeScale b.timeScale)
  have hpos : (0 : ℚ) < scale := by
    exact_mod_cast hscale ▸ (commonTimeScale_bounds ha.scale_pos hb.scale_pos).1
  rw [max_self, pow_zero, Int.ediv_one] at hscaleEq hval
  rw [seconds, hscaleEq, hval, Int.cast_add, Int.cast_mul, hl, hr]
  field_simp

theorem Undisturbed.faithful_of_whole_overflow
    (honce : RoundedOnce a b scale left right (max left right))
    (hout : ¬InSigned 64 (steppedSum sign a b scale left right (max left right)))
    (hone : scale / 2 ^ max left right = 1) (hne : a.wholePart ≠ 0) :
    Faithful sign a b (combine op a b) := by
  obtain ⟨l, r, hl, hr, heq⟩ := h.reaches_max_of_refused ha hb hscale hop hout
  have hlval := hl.value_eq
  have hrval := hr.value_eq
  rw [honce.1, hone] at hlval
  rw [honce.2, hone] at hrval
  have hlmem := hl.finite.value_mem
  have hrmem := hr.finite.value_mem
  have hsum : ¬InSigned 64 (a.numerator 1 + sign * b.numerator 1) := by
    rwa [steppedSum, honce.1, honce.2, hone] at hout
  have hnone := hop.refuses hlmem hrmem (by rw [hlval, hrval]; exact fun hacc => hsum hacc.1)
  rw [hlval] at hlmem
  rw [hrval] at hrmem
  have hloop : combineLoop op l r 1 =
      some (if l.timeValue > 0 then positiveInfiniteTime else negativeInfiniteTime) := by
    rw [combineLoop, hnone]
    simp
  obtain ⟨hpos, hneg⟩ := seconds_out_of_range hop.sign_eq ha hb hlmem hrmem
    (by rwa [numerator, rescale, mul_one]) hsum
  refine ⟨_, by rw [heq, hone, hloop], ?_,
    fun hfits => absurd hfits (h.not_fitsExactly ha hb hscale hout)⟩
  rw [hlval]
  split_ifs with hsgn
  · exact .inr (.inl ⟨rfl, hpos hsgn⟩)
  · exact .inr (.inr ⟨rfl, hneg hsgn⟩)

/-- An overflow at a scale above one is resolved by halving once. -/
theorem Undisturbed.faithful_of_halving
    (hout : ¬InSigned 64 (steppedSum sign a b scale left right (max left right)))
    (hgt : 1 < scale / 2 ^ max left right)
    (honce : RoundedOnce a b scale left right (max left right + 1)) :
    Faithful sign a b (combine op a b) := by
  obtain ⟨l, r, hreach⟩ := h.reaches_max_of_refused ha hb hscale hop hout
  have hnext := h.reaches_succ ha hb hscale hop hreach (fun hacc => hout hacc.1) hgt
  have hreached := hnext.left_inRound.scale_eq
  rw [max_eq_right (by omega : left ≤ max left right + 1)] at hreached
  obtain ⟨result, heq, hnum, -, -, hclose⟩ := hnext.approximates_of_accepted hop ha hb hreached
    (hnext.left_inRound.value_eq.trans honce.1) (hnext.right_inRound.value_eq.trans honce.2)
    (accepted_of_half hop.sign_eq (hnext.left_inRound.half_mem (by omega))
      (hnext.right_inRound.half_mem (by omega)))
  exact ⟨result, heq, .inl ⟨hnum, hclose⟩,
    fun hfits => absurd hfits (h.not_fitsExactly ha hb hscale hout)⟩

theorem Undisturbed.faithful : Faithful sign a b (combine op a b) := by
  rcases h.endsWell with ⟨honce, hacc | ⟨hout, hone, hne⟩⟩ | ⟨hout, hgt, honce⟩
  · exact h.faithful_of_accepted hop ha hb hscale honce hacc
  · exact h.faithful_of_whole_overflow hop ha hb hscale honce hout hone hne
  · exact h.faithful_of_halving hop ha hb hscale hout hgt honce

end

/-- Two loops that start at one scale end at scales of which one is at most half the other,
unless they agree. -/
theorem two_mul_fitTimeScale_le {v w : ℤ} (hv : InSigned 64 v) (hw : InSigned 64 w)
    (hpos : 0 < scale) (hlt : (fitTimeScale v scale).2 < (fitTimeScale w scale).2) :
    2 * (fitTimeScale v scale).2 ≤ (fitTimeScale w scale).2 := by
  induction hn : scale.toNat using Nat.strong_induction_on generalizing scale with
  | _ n ih =>
    have hwle := (fitTimeScale_spec w hw hpos).2.2
    have hvpos := (fitTimeScale_spec v hv hpos).2.1
    have hhalf := half_eq hpos.le
    have hvhalf := fitTimeScale_half (by omega : (fitTimeScale v scale).2 ≠ scale)
    have hgt : 1 < scale := by omega
    by_cases hwfull : (fitTimeScale w scale).2 = scale
    · have hvle := (fitTimeScale_spec v hv (by omega : 0 < scale.tdiv 2)).2.2
      rw [hvhalf] at hvle
      omega
    · have hwhalf := fitTimeScale_half hwfull
      rw [← hvhalf, ← hwhalf] at hlt ⊢
      exact ih _ (by omega) (by omega) hlt rfl

/-- A numerator of at least eight units added over the wrong scale is more than two units
off. -/
theorem two_lt_abs_mixed {x y l r s t : ℚ} {σ : ℚ} (hσ : |σ| = 1) (hs : 0 < s) (ht : 0 < t)
    (hst : 2 * s ≤ t ∨ 2 * t ≤ s) (hl : |l - x * s| < 1) (hr : |r - y * t| < 1)
    (hbig : 8 ≤ |r|) : 2 / s < |(l + σ * r) / s - (x + σ * y)| := by
  obtain ⟨k, hk⟩ : ∃ k, k = s / t := ⟨_, rfl⟩
  have hkpos : 0 < k := hk ▸ div_pos hs ht
  have heq : (l + σ * r) / s - (x + σ * y) =
      ((l - x * s) + σ * (r * (1 - k) + k * (r - y * t))) / s := by
    rw [hk]
    field_simp
    ring
  rw [heq, abs_div, abs_of_pos hs]
  have hmain : |r| * |1 - k| ≤
      |(l - x * s) + σ * (r * (1 - k) + k * (r - y * t))| + |l - x * s| + k * |r - y * t| := by
    have hsplit : σ * (r * (1 - k)) = ((l - x * s) + σ * (r * (1 - k) + k * (r - y * t))) -
        (l - x * s) - σ * (k * (r - y * t)) := by ring
    calc |r| * |1 - k| = |σ * (r * (1 - k))| := by rw [abs_mul, abs_mul, hσ, one_mul]
      _ ≤ |(l - x * s) + σ * (r * (1 - k) + k * (r - y * t))| + |l - x * s| +
          |σ * (k * (r - y * t))| := by
        rw [hsplit]
        exact (abs_sub _ _).trans (add_le_add_left (abs_sub _ _) _)
      _ = _ := by rw [abs_mul, hσ, one_mul, abs_mul, abs_of_pos hkpos]
  have hfar : 8 * |1 - k| ≤ |r| * |1 - k| := mul_le_mul_of_nonneg_right hbig (abs_nonneg _)
  have herr : k * |r - y * t| ≤ k := by
    simpa using mul_le_mul_of_nonneg_left hr.le hkpos.le
  have hk2 : 3 + k < 8 * |1 - k| := by
    rcases hst with hst | hst
    · have hsmall : k ≤ 1 / 2 := by
        rw [hk, div_le_iff₀ ht]
        linarith
      rw [abs_of_nonneg (by linarith)]
      linarith
    · have hlarge : 2 ≤ k := by
        rw [hk, le_div_iff₀ ht]
        linarith
      rw [abs_of_nonpos (by linarith)]
      linarith
  gcongr
  linarith

/-- Numerators over different scales are added as they are, and a right operand of at least eight
units makes the result wrong. -/
theorem AddedApart.not_faithful (hop : Checks op sign) (ha : IsFinite a) (hb : IsFinite b)
    (hscale : scale = commonTimeScale a.timeScale b.timeScale)
    (h : AddedApart sign a b scale left right) : ¬Faithful sign a b (combine op a b) := by
  obtain ⟨hcpos, hcle, -⟩ := commonTimeScale_bounds ha.scale_pos hb.scale_pos
  rw [← hscale] at hcpos hcle
  have hlpos := h.left_stops.scale_pos (whole_mem ha) hcpos
  have hrpos := h.right_stops.scale_pos (whole_mem hb) hcpos
  have hleft := setTimeScale_scale_of_stopsAt ha hcpos hcle h.left_stops
  have hright := setTimeScale_scale_of_stopsAt hb hcpos hcle h.right_stops
  have hapart : 2 * (scale / 2 ^ left) ≤ scale / 2 ^ right ∨
      2 * (scale / 2 ^ right) ≤ scale / 2 ^ left := by
    have hne := h.scales_ne
    rw [← h.left_stops.fit_eq (whole_mem ha) hcpos, ← h.right_stops.fit_eq (whole_mem hb) hcpos]
      at hne ⊢
    rcases lt_or_gt_of_ne hne with hlt | hgt
    · exact .inl (two_mul_fitTimeScale_le (whole_mem ha) (whole_mem hb) hcpos hlt)
    · exact .inr (two_mul_fitTimeScale_le (whole_mem hb) (whole_mem ha) hcpos hgt)
  have hloop : combine op a b = some { setTimeScale a scale with
      timeValue := a.numerator (scale / 2 ^ left) + sign * b.numerator (scale / 2 ^ right) } := by
    rw [combine, ← hscale]
    refine combineLoop_of_some ?_
    rw [setTimeScale_value ha hcpos hcle hleft h.left_mem,
      setTimeScale_value hb hcpos hcle hright h.right_mem]
    exact hop.accepts h.left_mem h.right_mem h.accepted
  have hnum := (setTimeScale_flags a scale ha.toIsNumber).setValue
    (a.numerator (scale / 2 ^ left) + sign * b.numerator (scale / 2 ^ right))
  rintro ⟨result, hres, happrox, -⟩
  rw [hloop, Option.some_inj] at hres
  rw [hres] at hnum
  have hsign : |(sign : ℚ)| = 1 := by
    rcases hop.sign_eq with rfl | rfl <;> simp
  have hfar := two_lt_abs_mixed hsign (by exact_mod_cast hlpos : (0 : ℚ) < (scale / 2 ^ left : ℤ))
    (by exact_mod_cast hrpos : (0 : ℚ) < (scale / 2 ^ right : ℤ)) (by exact_mod_cast hapart)
    (abs_rescale_sub_lt ha hlpos) (abs_rescale_sub_lt hb hrpos) (by exact_mod_cast h.large)
  rcases happrox with ⟨-, hclose⟩ | ⟨rfl, -⟩ | ⟨rfl, -⟩
  · rw [← hres] at hclose
    simp only [seconds, hleft, Int.cast_add, Int.cast_mul] at hclose hfar
    exact absurd hclose hfar.not_ge
  · exact absurd hnum.not_positive (by decide)
  · exact absurd hnum.not_negative (by decide)

end Combine

/-- The scale both operands are brought to: the least common multiple of their scales, or the
greatest scale. -/
def commonScale (a b : MediaTime) : ℤ := min (Int.lcm a.timeScale b.timeScale : ℤ) MaximumTimeScale

/-- Addition and subtraction of finite times are faithful where no numerators of different scales
are added, none wraps around and none is rounded twice. -/
theorem add_sub_faithful {a b : MediaTime} (ha : IsFinite a) (hb : IsFinite b) (left right : ℕ) :
    (Undisturbed 1 a b (commonScale a b) left right → Faithful 1 a b (add a b)) ∧
    (Undisturbed (-1) a b (commonScale a b) left right → Faithful (-1) a b (sub a b)) ∧
    (AddedApart 1 a b (commonScale a b) left right → ¬Faithful 1 a b (add a b)) ∧
    (AddedApart (-1) a b (commonScale a b) left right → ¬Faithful (-1) a b (sub a b)) := by
  have hscale : commonScale a b = _ := (commonTimeScale_eq_min ha hb).symm
  rw [add_eq_combine ha.toIsNumber hb.toIsNumber, sub_eq_combine ha.toIsNumber hb.toIsNumber]
  exact ⟨fun h => h.faithful safeAdd_checks ha hb hscale,
    fun h => h.faithful safeSub_checks ha hb hscale,
    fun h => h.not_faithful safeAdd_checks ha hb hscale,
    fun h => h.not_faithful safeSub_checks ha hb hscale⟩

def ofValue (timeValue timeScale : ℤ) : MediaTime :=
  ⟨timeValue, timeScale, true, false, false, false, false⟩

theorem ofValue_isFinite {timeValue timeScale : ℤ} (hvalue : InSigned 64 timeValue)
    (hpos : 0 < timeScale) (hle : timeScale ≤ MaximumTimeScale) :
    IsFinite (ofValue timeValue timeScale) := ⟨⟨rfl, rfl, rfl, rfl⟩, hvalue, hpos, hle⟩

/-- The sum of 15 * 10 ^ 17 and 3 * 10 ^ 18 seconds: over 6 and 3 the numerators overflow, over 3
they overflow again, and whole seconds are exact. -/
theorem add_sub_faithful_whole_seconds :
    Faithful 1 (ofValue (3 * 10 ^ 18) 2) (ofValue (9 * 10 ^ 18) 3)
        (add (ofValue (3 * 10 ^ 18) 2) (ofValue (9 * 10 ^ 18) 3)) ∧
      Faithful (-1) (ofValue (4 * 10 ^ 18) 2) (ofValue (6 * 10 ^ 18) 3)
        (sub (ofValue (4 * 10 ^ 18) 2) (ofValue (6 * 10 ^ 18) 3)) ∧
      ¬Faithful (-1) (ofValue (3 * 10 ^ 18) 2) (ofValue (8 * 10 ^ 18) 3)
        (sub (ofValue (3 * 10 ^ 18) 2) (ofValue (8 * 10 ^ 18) 3)) := by
  refine ⟨(add_sub_faithful (ofValue_isFinite ?_ ?_ ?_) (ofValue_isFinite ?_ ?_ ?_) 0 1).1 ?_,
    (add_sub_faithful (ofValue_isFinite ?_ ?_ ?_) (ofValue_isFinite ?_ ?_ ?_) 1 1).2.1 ?_,
    (add_sub_faithful (ofValue_isFinite ?_ ?_ ?_) (ofValue_isFinite ?_ ?_ ?_) 0 1).2.2.2 ?_⟩
  all_goals first | decide | constructor <;> decide +kernel

example : Undisturbed 1 (ofValue (4 * 10 ^ 18) 2) (ofValue (6 * 10 ^ 18) 3) 6 1 1 := by
  constructor <;> decide +kernel

/-- 2 ^ 62 seconds do not fit over the common scale 3 and are left at scale 1, a million
seconds are left at scale 3, and the two numerators are added. -/
theorem not_faithful_add_mixed : IsFinite (ofValue (2 ^ 62) 1) ∧ IsFinite (ofValue 3000000 3) ∧
      add (ofValue (2 ^ 62) 1) (ofValue 3000000 3) = some (ofValue (2 ^ 62 + 3000000) 1) ∧
      ¬ Faithful 1 (ofValue (2 ^ 62) 1) (ofValue 3000000 3)
        (add (ofValue (2 ^ 62) 1) (ofValue 3000000 3)) := by
  have ha : IsFinite (ofValue (2 ^ 62) 1) := ofValue_isFinite (by decide) (by decide) (by decide)
  have hb : IsFinite (ofValue 3000000 3) := ofValue_isFinite (by decide) (by decide) (by decide)
  refine ⟨ha, hb, by decide +kernel, ?_⟩
  rw [add_eq_combine ha.toIsNumber hb.toIsNumber]
  have hapart : AddedApart 1 (ofValue (2 ^ 62) 1) (ofValue 3000000 3) 3 1 0 := by
    constructor <;> decide +kernel
  exact hapart.not_faithful safeAdd_checks ha hb (by decide +kernel)

end MediaTime

end WebKit
