import Mathlib

/-!
Changing the denominator of a fraction with truncating integer division.
`rescale v s t` is the numerator of `v / s` over the denominator `t`, rounded toward zero.
-/
namespace WebKit.Rescaling

def rescale (v s t : ℤ) : ℤ := (v * t).tdiv s

@[simp] theorem rescale_neg (v s t : ℤ) : rescale (-v) s t = -rescale v s t := by
  simp [rescale]

variable {s v t : ℤ}

@[simp] theorem rescale_self (v : ℤ) (hs : s ≠ 0) : rescale v s s = v :=
  Int.mul_tdiv_cancel v hs

theorem rescale_of_nonneg (s : ℤ) (hv : 0 ≤ v) (ht : 0 ≤ t) : rescale v s t = v * t / s :=
  Int.tdiv_eq_ediv_of_nonneg (mul_nonneg hv ht)

/-- A statement about rescaled numerators that respects negation is settled by the
nonnegative ones. -/
theorem of_nonneg_of_neg {P : ℤ → Prop} (hneg : ∀ v, P v → P (-v))
    (hnonneg : ∀ v, 0 ≤ v → P v) (v : ℤ) : P v := by
  rcases le_or_gt 0 v with hv | hv
  · exact hnonneg v hv
  · simpa using hneg (-v) (hnonneg (-v) (by omega))

/-- The whole part and the remainder can be rescaled separately. -/
theorem rescale_eq_whole_add (v : ℤ) (hs : 0 < s) (ht : 0 ≤ t) :
    rescale v s t = v.tdiv s * t + rescale (v.tmod s) s t := by
  revert v
  refine of_nonneg_of_neg ?_ ?_
  · intro v hv
    rw [rescale_neg, Int.neg_tdiv, Int.neg_tmod, rescale_neg, hv]
    ring
  · intro v hv
    have hr : 0 ≤ v.tmod s := Int.tmod_nonneg _ hv
    rw [rescale_of_nonneg s hv ht, rescale_of_nonneg s hr ht]
    have hsplit : v * t = v.tmod s * t + s * (v.tdiv s * t) := by
      conv_lhs => rw [← Int.tmod_add_mul_tdiv v s]
      ring
    rw [hsplit, Int.add_mul_ediv_left _ _ hs.ne', add_comm]

/-- The whole part survives a rounding. -/
theorem rescale_tdiv (v : ℤ) (hs : 0 < s) (ht : 0 < t) : (rescale v s t).tdiv t = v.tdiv s := by
  revert v
  refine of_nonneg_of_neg ?_ ?_
  · intro v hv
    rw [rescale_neg, Int.neg_tdiv, Int.neg_tdiv, hv]
  · intro v hv
    rw [rescale_of_nonneg s hv ht.le, Int.tdiv_eq_ediv_of_nonneg hv,
      Int.tdiv_eq_ediv_of_nonneg (Int.ediv_nonneg (mul_nonneg hv ht.le) hs.le),
      Int.ediv_ediv_of_nonneg hs.le, Int.mul_ediv_mul_of_pos_left _ _ ht]

theorem abs_rescale_mul_sub_lt (v : ℤ) (hs : 0 < s) (ht : 0 ≤ t) :
    |rescale v s t * s - v * t| < s := by
  revert v
  refine of_nonneg_of_neg ?_ ?_
  · intro v hv
    rw [rescale_neg, ← abs_neg]
    simpa [add_comm, sub_eq_add_neg] using hv
  · intro v hv
    rw [rescale_of_nonneg s hv ht, abs_lt]
    have hlow := Int.emod_nonneg (v * t) hs.ne'
    have hhigh := Int.emod_lt_of_pos (v * t) hs
    have hdiv := Int.emod_add_mul_ediv (v * t) s
    constructor <;> linarith [mul_comm s (v * t / s)]

theorem rescale_nonneg (hv : 0 ≤ v) (hs : 0 ≤ s) (ht : 0 ≤ t) : 0 ≤ rescale v s t :=
  Int.tdiv_nonneg (mul_nonneg hv ht) hs

theorem rescale_mul_le (hv : 0 ≤ v) (hs : 0 < s) (ht : 0 ≤ t) : rescale v s t * s ≤ v * t := by
  rw [rescale_of_nonneg s hv ht]
  exact Int.ediv_mul_le _ hs.ne'

theorem nonneg_of_rescale_pos (hs : 0 ≤ s) (ht : 0 ≤ t) (h : 0 < rescale v s t) : 0 ≤ v := by
  by_contra hv
  have hneg := rescale_nonneg (v := -v) (by omega) hs ht
  rw [rescale_neg] at hneg
  omega

/-- At half the scale or less the numerator is at most half as large. -/
theorem two_mul_rescale_le (hv : 0 ≤ v) (hs : 0 < s) (ht : 0 ≤ t) (hhalf : 2 * t ≤ s) :
    2 * rescale v s t ≤ v := by
  have hmul : (2 * rescale v s t) * s ≤ v * s := by
    calc (2 * rescale v s t) * s = 2 * (rescale v s t * s) := by ring
      _ ≤ 2 * (v * t) := by linarith [rescale_mul_le hv hs ht]
      _ = v * (2 * t) := by ring
      _ ≤ v * s := mul_le_mul_of_nonneg_left hhalf hv
  exact le_of_mul_le_mul_right hmul hs

theorem whole_mul_nonneg_le (hv : 0 ≤ v) (hs : 0 < s) (ht : 0 ≤ t) :
    0 ≤ v.tdiv s * t ∧ v.tdiv s * t ≤ rescale v s t := by
  have hrem := rescale_nonneg (Int.tmod_nonneg s hv) hs.le ht
  have hwhole := mul_nonneg (Int.tdiv_nonneg hv hs.le) ht
  rw [rescale_eq_whole_add v hs ht]
  exact ⟨hwhole, by linarith⟩

end WebKit.Rescaling
