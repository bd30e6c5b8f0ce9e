import WebKit.WTF.MediaTime

/-!
Media times over different time scales: when a time is rescaled without an overflow, and the
order of all times that do not hold a double.
-/
namespace WebKit.MediaTime

open CheckedArithmetic Rescaling

section Rescaled

variable {time : MediaTime} {scale : ℤ}

/-- A smaller scale needs no more room. -/
theorem rescale_mem_of_le {v s t u : ℤ} (hs : 0 < s) (hu : 0 ≤ u) (hle : u ≤ t)
    (hmem : InSigned 64 (rescale v s t)) : InSigned 64 (rescale v s u) := by
  obtain ⟨hmin, hmax⟩ := int64_bounds
  have hmono {v : ℤ} (hv : 0 ≤ v) : rescale v s u ≤ rescale v s t := by
    rw [rescale_of_nonneg s hv hu, rescale_of_nonneg s hv (hu.trans hle)]
    exact Int.ediv_le_ediv hs (mul_le_mul_of_nonneg_left hle hv)
  rcases le_or_gt 0 v with hv | hv
  · have hnonneg := rescale_nonneg hv hs.le hu
    have hle := hmono hv
    constructor <;> omega
  · have hnonneg := rescale_nonneg (v := -v) (by omega) hs.le hu
    have hle := hmono (v := -v) (by omega)
    rw [rescale_neg] at hnonneg
    rw [rescale_neg, rescale_neg] at hle
    constructor <;> omega

/-- The product of a remainder and a time scale has 62 bits. -/
theorem remainder_mul_mem (htime : IsFinite time) (hpos : 0 ≤ scale)
    (hle : scale ≤ MaximumTimeScale) :
    InSigned 64 (time.timeValue.tmod time.timeScale * scale) := by
  obtain ⟨hmin, hmax⟩ := int64_bounds
  have hmaximum : MaximumTimeScale = 2 ^ 31 - 1 := by decide
  have hlt := Int.tmod_lt_of_pos time.timeValue htime.scale_pos
  have hgt := Int.lt_tmod_of_pos time.timeValue htime.scale_pos
  have hscale := htime.scale_le
  constructor <;> nlinarith

/-- The steps of `setTimeScale` that are not checked for an overflow stay within an int64. -/
def NoOverflow (time : MediaTime) (scale : ℤ) : Prop :=
  let remainder := time.timeValue.tmod time.timeScale
  InSigned 64 (time.timeValue.tdiv time.timeScale) ∧ InSigned 64 (remainder * scale) ∧
    InSigned 64 (time.timeValue.tdiv time.timeScale * scale +
      (remainder * scale).tdiv time.timeScale)

/-- The time is rescaled to the requested scale, or to one that is reached by halving it, and is
rounded toward zero. The requested scale is kept if the value fits there. -/
structure RescalesExactly (time : MediaTime) (scale : ℤ) : Prop where
  halved : ∃ k : ℕ, (setTimeScale time scale).timeScale = scale / 2 ^ k
  noOverflow : NoOverflow time (setTimeScale time scale).timeScale
  value_eq : (setTimeScale time scale).timeValue =
    rescale time.timeValue time.timeScale (setTimeScale time scale).timeScale
  kept : InSigned 64 (rescale time.timeValue time.timeScale scale) →
    (setTimeScale time scale).timeScale = scale

theorem IsFinite.rescalesExactly_iff (htime : IsFinite time) (hpos : 0 < scale)
    (hle : scale ≤ MaximumTimeScale) :
    RescalesExactly time scale ↔ ∀ k,
      InSigned 64 (time.timeValue.tdiv time.timeScale * (scale / 2 ^ k)) →
        InSigned 64 (rescale time.timeValue time.timeScale (scale / 2 ^ k)) := by
  obtain ⟨hspos, hscaleLe, hval⟩ := setTimeScale_spec htime hpos hle
  obtain ⟨⟨j, hj⟩, hfits, hlast⟩ := fitTimeScale_first (whole_mem htime) hpos
  rw [← setTimeScale_scale_eq htime hpos hle] at hj hfits hlast
  have hsum := rescale_eq_whole_add time.timeValue htime.scale_pos hspos.le
  constructor
  · intro hexact k hwhole
    have hmem := hexact.noOverflow.2.2
    rw [← rescale, ← hsum] at hmem
    exact rescale_mem_of_le htime.scale_pos (Int.ediv_nonneg hpos.le (by positivity))
      (hlast k hwhole) hmem
  · intro hall
    have hmem : InSigned 64 (rescale time.timeValue time.timeScale
        (setTimeScale time scale).timeScale) := by
      rw [hj] at hfits ⊢
      exact hall j hfits
    refine ⟨⟨j, hj⟩, ⟨whole_mem htime, ?_, ?_⟩, hval hmem, ?_⟩
    · exact remainder_mul_mem htime hspos.le (hscaleLe.trans hle)
    · rwa [← rescale, ← hsum]
    · exact setTimeScale_scale_of_fits htime hpos hle

/-- The flags play no part in rescaling. -/
theorem RescalesExactly.of_same {other : MediaTime} (h : RescalesExactly time scale)
    (hval : other.timeValue = time.timeValue) (hscale : other.timeScale = time.timeScale) :
    RescalesExactly other scale := by
  have hsame : (setTimeScale other scale).timeScale = (setTimeScale time scale).timeScale ∧
      (setTimeScale other scale).timeValue = (setTimeScale time scale).timeValue := by
    unfold setTimeScale
    rw [hval, hscale]
    split_ifs
    · exact ⟨hscale, hval⟩
    · exact ⟨rfl, rfl⟩
  obtain ⟨hnscale, hnewValue⟩ := hsame
  constructor
  · rw [hnscale]
    exact h.halved
  · rw [hnscale, NoOverflow, hval, hscale]
    exact h.noOverflow
  · rw [hnscale, hnewValue, hval, hscale]
    exact h.value_eq
  · rw [hnscale, hval, hscale]
    exact h.kept

/-- A time is rescaled exactly if at no halved scale the whole part fits and the whole value does
not. -/
theorem setTimeScale_rescales_exactly_iff (hvalue : InSigned 64 time.timeValue)
    (hscalePos : 0 < time.timeScale) (hscaleLe : time.timeScale ≤ MaximumTimeScale)
    (hpos : 0 < scale) (hle : scale ≤ MaximumTimeScale) :
    RescalesExactly time scale ↔ ∀ k : ℕ,
      InSigned 64 (time.timeValue.tdiv time.timeScale * (scale / 2 ^ k)) →
        InSigned 64 (rescale time.timeValue time.timeScale (scale / 2 ^ k)) := by
  have htime : IsFinite (ofValue time.timeValue time.timeScale) :=
    ⟨⟨rfl, rfl, rfl, rfl⟩, hvalue, hscalePos, hscaleLe⟩
  refine Iff.trans ?_ (htime.rescalesExactly_iff hpos hle)
  exact ⟨fun h => h.of_same rfl rfl, fun h => h.of_same rfl rfl⟩

/-- Half a second at scale three is rounded to a third of a second. -/
theorem rescales_exactly_half : RescalesExactly (ofValue 1 2) 3 := by
  refine (@setTimeScale_rescales_exactly_iff (ofValue 1 2) 3 (by decide) (by decide)
    (by decide) (by decide) (by decide)).mpr fun k _ => ?_
  exact rescale_mem_of_le (t := 3) (by decide) (Int.ediv_nonneg (by decide) (by positivity))
    (Int.ediv_le_self _ (by decide)) (by decide)

/-- The whole part is the greatest int64 at the new scale, and the rest is added to it. -/
theorem not_rescales_exactly_half : IsFinite (ofValue (2 * ((2 ^ 63 - 1) / 7) + 1) 2) ∧
      (setTimeScale (ofValue (2 * ((2 ^ 63 - 1) / 7) + 1) 2) 7).timeValue < 0 ∧
      ¬ RescalesExactly (ofValue (2 * ((2 ^ 63 - 1) / 7) + 1) 2) 7 := by
  have htime : IsFinite (ofValue (2 * ((2 ^ 63 - 1) / 7) + 1) 2) :=
    ⟨⟨rfl, rfl, rfl, rfl⟩, by decide, by decide, by decide⟩
  refine ⟨htime, by decide +kernel, fun hexact => ?_⟩
  exact absurd hexact.noOverflow.2.2 (by decide +kernel)

end Rescaled

inductive Kind where
  | negativeInfinite
  | finite
  | indefinite
  | positiveInfinite
  | invalid
deriving DecidableEq

def Kind.rank : Kind → ℕ
  | negativeInfinite => 0
  | finite => 1
  | indefinite => 2
  | positiveInfinite => 3
  | invalid => 4

structure IsTime (kind : Kind) (time : MediaTime) : Prop where
  valid : time.valid = decide (kind ≠ .invalid)
  positiveInfinite : time.positiveInfinite = decide (kind = .positiveInfinite)
  negativeInfinite : time.negativeInfinite = decide (kind = .negativeInfinite)
  indefinite : time.indefinite = decide (kind = .indefinite)
  value_mem : InSigned 64 time.timeValue
  scale_pos : 0 < time.timeScale
  scale_le : time.timeScale ≤ MaximumTimeScale

def exact64 (x : ℤ) : Option ℤ := if InSigned 64 x then some x else none

def compareNumbers (a b : MediaTime) : Option Ordering := do
  let rhsWhole ← exact64 (b.timeValue.tdiv b.timeScale)
  let lhsWhole ← exact64 (a.timeValue.tdiv a.timeScale)
  if lhsWhole > rhsWhole then return .gt
  if lhsWhole < rhsWhole then return .lt
  let rhsRemain := b.timeValue.tmod b.timeScale
  let lhsRemain := a.timeValue.tmod a.timeScale
  let lhsFactor ← exact64 (lhsRemain * b.timeScale)
  let rhsFactor ← exact64 (rhsRemain * a.timeScale)
  if lhsFactor = rhsFactor then return .eq
  return if lhsFactor > rhsFactor then .gt else .lt

def compare (a b : MediaTime) : Option Ordering :=
  if (a.positiveInfinite && b.positiveInfinite) || (a.negativeInfinite && b.negativeInfinite) ||
      (!a.valid && !b.valid) || (a.indefinite && b.indefinite) then some .eq
  else if !a.valid then some .gt
  else if !b.valid then some .lt
  else if b.negativeInfinite || a.positiveInfinite then some .gt
  else if b.positiveInfinite || a.negativeInfinite then some .lt
  else if a.indefinite then some .gt
  else if b.indefinite then some .lt
  else compareNumbers a b

section Comparison

variable {a b c : MediaTime} {ka kb kc : Kind}

/-- The greater fraction has the greater whole part. -/
theorem tdiv_le_tdiv_of_mul_le {v w s t : ℤ} (hs : 0 < s) (ht : 0 < t) (h : w * s ≤ v * t) :
    w.tdiv t ≤ v.tdiv s := by
  have hmono {v w s t : ℤ} (hs : 0 < s) (ht : 0 < t) (hv : 0 ≤ v) (hw : 0 ≤ w)
      (h : w * s ≤ v * t) : w.tdiv t ≤ v.tdiv s := by
    rw [Int.tdiv_eq_ediv_of_nonneg hv, Int.tdiv_eq_ediv_of_nonneg hw, Int.le_ediv_iff_mul_le hs]
    have hquot := Int.ediv_mul_le w ht.ne'
    nlinarith
  rcases le_or_gt 0 v with hv | hv
  · rcases le_or_gt 0 w with hw | hw
    · exact hmono hs ht hv hw h
    · have hneg := Int.tdiv_nonneg (a := -w) (by omega) ht.le
      rw [Int.neg_tdiv] at hneg
      have hnonneg := Int.tdiv_nonneg hv hs.le
      omega
  · have hw : w < 0 := by nlinarith
    have hle := hmono ht hs (v := -w) (w := -v) (by omega) (by omega) (by linarith)
    rw [Int.neg_tdiv, Int.neg_tdiv] at hle
    omega

theorem IsTime.isFinite (h : IsTime .finite a) : IsFinite a :=
  ⟨⟨h.valid, h.positiveInfinite, h.negativeInfinite, h.indefinite⟩, h.value_mem, h.scale_pos,
    h.scale_le⟩

/-- Numbers are compared as fractions, without an overflow. -/
theorem compareNumbers_eq (ha : IsFinite a) (hb : IsFinite b) :
    compareNumbers a b = some (cmp (a.timeValue * b.timeScale) (b.timeValue * a.timeScale)) := by
  have hleft := remainder_mul_mem ha hb.scale_pos.le hb.scale_le
  have hright := remainder_mul_mem hb ha.scale_pos.le ha.scale_le
  have hquotA := Int.tmod_add_mul_tdiv a.timeValue a.timeScale
  have hquotB := Int.tmod_add_mul_tdiv b.timeValue b.timeScale
  have hless := tdiv_le_tdiv_of_mul_le (v := a.timeValue) (w := b.timeValue) ha.scale_pos hb.scale_pos
  have hmore := tdiv_le_tdiv_of_mul_le (v := b.timeValue) (w := a.timeValue) hb.scale_pos ha.scale_pos
  simp only [compareNumbers, exact64, if_pos (whole_mem ha), if_pos (whole_mem hb), if_pos hleft,
    if_pos hright, bind, Option.bind_some]
  rcases lt_trichotomy (a.timeValue.tdiv a.timeScale) (b.timeValue.tdiv b.timeScale) with
    hlt | heq | hgt
  · rw [if_neg hlt.not_gt, if_pos hlt, cmp_eq_lt_iff _ _ |>.mpr]
    · rfl
    · by_contra hle
      exact absurd (hless (not_lt.mp hle)) hlt.not_ge
  · have hfactors : a.timeValue * b.timeScale - b.timeValue * a.timeScale =
        a.timeValue.tmod a.timeScale * b.timeScale - b.timeValue.tmod b.timeScale * a.timeScale := by
      rw [heq] at hquotA
      linear_combination (-b.timeScale) * hquotA + a.timeScale * hquotB
    rw [if_neg heq.not_gt, if_neg heq.not_lt]
    rcases lt_trichotomy (a.timeValue.tmod a.timeScale * b.timeScale)
      (b.timeValue.tmod b.timeScale * a.timeScale) with hlt | hsame | hgt
    · rw [if_neg hlt.ne, if_neg hlt.not_gt, cmp_eq_lt_iff _ _ |>.mpr (by linarith)]
      rfl
    · rw [if_pos hsame, cmp_eq_eq_iff _ _ |>.mpr (by linarith)]
      rfl
    · rw [if_neg hgt.ne', if_pos hgt, cmp_eq_gt_iff _ _ |>.mpr (by linarith)]
      rfl
  · rw [if_pos hgt, cmp_eq_gt_iff _ _ |>.mpr]
    · rfl
    · by_contra hle
      exact absurd (hmore (not_lt.mp hle)) hgt.not_ge

theorem cmp_seconds (ha : IsFinite a) (hb : IsFinite b) :
    cmp (a.timeValue * b.timeScale) (b.timeValue * a.timeScale) = cmp (seconds a) (seconds b) := by
  have hs : (0 : ℚ) < a.timeScale := by exact_mod_cast ha.scale_pos
  have ht : (0 : ℚ) < b.timeScale := by exact_mod_cast hb.scale_pos
  have hmono : StrictMono fun x : ℤ => (x : ℚ) / (a.timeScale * b.timeScale) := by
    intro x y hxy
    have hcast : (x : ℚ) < y := by exact_mod_cast hxy
    exact div_lt_div_of_pos_right hcast (mul_pos hs ht)
  have hleft : seconds a = ((a.timeValue * b.timeScale : ℤ) : ℚ) / (a.timeScale * b.timeScale) := by
    rw [seconds]
    push_cast
    field_simp
  have hright : seconds b = ((b.timeValue * a.timeScale : ℤ) : ℚ) / (a.timeScale * b.timeScale) := by
    rw [seconds]
    push_cast
    field_simp
  rw [hleft, hright]
  exact (hmono.cmp_map_eq _ _).symm

theorem compare_of_rank_lt (ha : IsTime ka a) (hb : IsTime kb b) (hlt : ka.rank < kb.rank) :
    compare a b = some .lt ∧ compare b a = some .gt := by
  cases ka <;> cases kb <;> first
    | exact absurd hlt (by decide)
    | simp [compare, ha.valid, hb.valid, ha.positiveInfinite, hb.positiveInfinite,
        ha.negativeInfinite, hb.negativeInfinite, ha.indefinite, hb.indefinite]

theorem compare_of_same_kind (ha : IsTime ka a) (hb : IsTime ka b) (hkind : ka ≠ .finite) :
    compare a b = some .eq := by
  cases ka <;> first
    | exact absurd rfl hkind
    | simp [compare, ha.valid, hb.valid, ha.positiveInfinite, hb.positiveInfinite,
        ha.negativeInfinite, hb.negativeInfinite, ha.indefinite, hb.indefinite]

theorem compare_of_finite (ha : IsTime .finite a) (hb : IsTime .finite b) :
    compare a b = some (cmp (seconds a) (seconds b)) := by
  rw [← cmp_seconds ha.isFinite hb.isFinite, ← compareNumbers_eq ha.isFinite hb.isFinite]
  simp [compare, ha.valid, hb.valid, ha.positiveInfinite, hb.positiveInfinite,
    ha.negativeInfinite, hb.negativeInfinite, ha.indefinite, hb.indefinite]

def position (kind : Kind) (time : MediaTime) : ℕ ×ₗ ℚ :=
  toLex (kind.rank, if kind = .finite then seconds time else 0)

theorem position_lt_position (hlt : ka.rank < kb.rank) : position ka a < position kb b :=
  Prod.Lex.toLex_lt_toLex.mpr (Or.inl hlt)

theorem Kind.eq_of_rank_eq (h : ka.rank = kb.rank) : ka = kb := by
  cases ka <;> cases kb <;> first
    | rfl
    | exact absurd h (by decide)

/-- Times are compared by their positions. -/
theorem compare_eq_cmp_position (ha : IsTime ka a) (hb : IsTime kb b) :
    compare a b = some (cmp (position ka a) (position kb b)) := by
  rcases lt_trichotomy ka.rank kb.rank with hlt | heq | hgt
  · rw [(compare_of_rank_lt ha hb hlt).1, (cmp_eq_lt_iff _ _).mpr (position_lt_position hlt)]
  · obtain rfl := Kind.eq_of_rank_eq heq
    by_cases hkind : ka = .finite
    · subst hkind
      have hmono : StrictMono fun x : ℚ => (toLex (Kind.finite.rank, x) : ℕ ×ₗ ℚ) :=
        fun x y hxy => Prod.Lex.toLex_lt_toLex.mpr (Or.inr ⟨rfl, hxy⟩)
      rw [compare_of_finite ha hb, position, position, if_pos rfl, if_pos rfl]
      exact congrArg some (hmono.cmp_map_eq _ _).symm
    · rw [compare_of_same_kind ha hb hkind, position, position, if_neg hkind, if_neg hkind,
        cmp_self_eq_eq]
  · rw [(compare_of_rank_lt hb ha hgt).2, (cmp_eq_gt_iff _ _).mpr (position_lt_position hgt)]

/-- The comparison never overflows and is a total preorder: on numbers the order of the fractions,
with the other kinds of times around them. -/
theorem compare_is_total_preorder (ha : IsTime ka a) (hb : IsTime kb b) (hc : IsTime kc c) :
    (∃ order, compare a b = some order ∧ compare b a = some order.swap) ∧ compare a a = some .eq ∧
      (compare a b ≠ some .gt → compare b c ≠ some .gt → compare a c ≠ some .gt) ∧
      (compare a b = some .eq → compare b c = some .eq → compare a c = some .eq) ∧
      (ka = .finite → kb = .finite → compare a b = some (cmp (seconds a) (seconds b))) ∧
      (ka.rank < kb.rank → compare a b = some .lt) ∧
      (ka = kb → ka ≠ .finite → compare a b = some .eq) := by
  have hle {a b : MediaTime} {ka kb : Kind} (ha : IsTime ka a) (hb : IsTime kb b) :
      compare a b ≠ some .gt ↔ position ka a ≤ position kb b := by
    rw [compare_eq_cmp_position ha hb, ne_eq, Option.some.injEq, cmp_eq_gt_iff, not_lt]
  have heq {a b : MediaTime} {ka kb : Kind} (ha : IsTime ka a) (hb : IsTime kb b) :
      compare a b = some .eq ↔ position ka a = position kb b := by
    rw [compare_eq_cmp_position ha hb, Option.some.injEq, cmp_eq_eq_iff]
  refine ⟨⟨_, compare_eq_cmp_position ha hb, ?_⟩, (heq ha ha).mpr rfl, ?_, ?_, ?_, ?_, ?_⟩
  · rw [compare_eq_cmp_position hb ha, cmp_swap]
  · rw [hle ha hb, hle hb hc, hle ha hc]
    exact le_trans
  · rw [heq ha hb, heq hb hc, heq ha hc]
    exact Eq.trans
  · rintro rfl rfl
    exact compare_of_finite ha hb
  · exact fun hlt => (compare_of_rank_lt ha hb hlt).1
  · rintro rfl hkind
    exact compare_of_same_kind ha hb hkind

/-- One half and two quarters are equal, and come before the infinite time. -/
theorem compare_halves_and_infinite : compare (ofValue 1 2) (ofValue 2 4) = some .eq ∧
      compare (ofValue 2 4) positiveInfiniteTime ≠ some .gt ∧
      compare (ofValue 1 2) positiveInfiniteTime ≠ some .gt := by
  have hhalf : IsTime .finite (ofValue 1 2) := by constructor <;> decide
  have hquarters : IsTime .finite (ofValue 2 4) := by constructor <;> decide
  have hinfinite : IsTime .positiveInfinite positiveInfiniteTime := by constructor <;> decide
  have hord := compare_is_total_preorder hhalf hquarters hinfinite
  exact ⟨by decide, by decide, hord.2.2.1 (by decide) (by decide)⟩

end Comparison

end WebKit.MediaTime
