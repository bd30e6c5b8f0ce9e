import WebKit.Graphics.Shape

/-!
The comparison of two shapes. It goes through the spans of both and, where they overlap, through
their segments, and stops where one shape is found outside of the other or where they overlap. Whether
it has to look at the part of a span above the other span depends on what was found there before.
-/

namespace WebKit.Graphics

open List StepFunctions

namespace Shape

/-- For each finding, the result with which the comparison stops, if it does. -/
structure CompareOperation where
  defaultResult : Bool
  aOutsideB : Option Bool
  bOutsideA : Option Bool
  aOverlapsB : Option Bool

def compareContainsOperation : CompareOperation where
  defaultResult := true
  aOutsideB := none
  bOutsideA := some false
  aOverlapsB := none

def compareIntersectsOperation : CompareOperation where
  defaultResult := false
  aOutsideB := none
  bOutsideA := none
  aOverlapsB := some true

variable (op : CompareOperation)

def compareSegments (aSegments bSegments : List ℤ) : Option Bool :=
  match aSegments, bSegments with
  | aX :: aMaxX :: aRest, bX :: bMaxX :: bRest =>
    let segmentsOverlap := bMaxX > aX ∧ bX < aMaxX
    (if segmentsOverlap then op.aOverlapsB else none).or <|
      (if aX < bX then op.aOutsideB else none).or <|
      (if bX < aX then op.bOutsideA else none).or <|
      if aMaxX < bMaxX then compareSegments aRest (bX :: bMaxX :: bRest)
      else if bMaxX < aMaxX then compareSegments (aX :: aMaxX :: aRest) bRest
      else compareSegments aRest bRest
  | aSegments, bSegments =>
    (if !aSegments.isEmpty then op.aOutsideB else none).or <|
      if !bSegments.isEmpty then op.bOutsideA else none
termination_by aSegments.length + bSegments.length
decreasing_by all_goals simp only [length_cons]; omega

def compareSpans (aHadSegmentInPreviousSpan bHadSegmentInPreviousSpan : Bool)
    (aSpans bSpans : List Row) : Option Bool :=
  match aSpans, bSpans with
  | (aY, aSegments) :: (aMaxY, aNext) :: aRest, (bY, bSegments) :: (bMaxY, bNext) :: bRest =>
    let aHasSegmentInSpan := !aSegments.isEmpty
    let bHasSegmentInSpan := !bSegments.isEmpty
    let spansOverlap := bMaxY > aY ∧ bY < aMaxY
    (if aY < bY ∧ !bHadSegmentInPreviousSpan ∧ aHasSegmentInSpan then op.aOutsideB else none).or <|
      (if bY < aY ∧ !aHadSegmentInPreviousSpan ∧ bHasSegmentInSpan then op.bOutsideA else none).or <|
      (if spansOverlap then compareSegments op aSegments bSegments else none).or <|
      if aMaxY < bMaxY then
        compareSpans aHasSegmentInSpan bHasSegmentInSpan ((aMaxY, aNext) :: aRest)
          ((bY, bSegments) :: (bMaxY, bNext) :: bRest)
      else if bMaxY < aMaxY then
        compareSpans aHasSegmentInSpan bHasSegmentInSpan
          ((aY, aSegments) :: (aMaxY, aNext) :: aRest) ((bMaxY, bNext) :: bRest)
      else
        compareSpans aHasSegmentInSpan bHasSegmentInSpan ((aMaxY, aNext) :: aRest)
          ((bMaxY, bNext) :: bRest)
  | aSpans, bSpans =>
    (if 2 ≤ aSpans.length then op.aOutsideB else none).or <|
      if 2 ≤ bSpans.length then op.bOutsideA else none
termination_by aSpans.length + bSpans.length
decreasing_by all_goals simp only [length_cons]; omega

def compareShapes (aShape bShape : Shape) : Bool :=
  (compareSpans op false false aShape.rows bShape.rows).getD op.defaultResult

theorem Edges.cons_cons {start stop : ℤ} {rest : List ℤ} (h : Edges (start :: stop :: rest)) :
    start < stop ∧ Edges rest ∧
      (∀ x, inside (start :: stop :: rest) x ↔ (start ≤ x ∧ x < stop) ∨ inside rest x) ∧
      ∀ x, inside rest x → stop < x := by
  obtain ⟨hstart, hrest⟩ := pairwise_cons.mp h.sorted
  obtain ⟨hstop, hsort⟩ := pairwise_cons.mp hrest
  refine ⟨hstart stop mem_cons_self, ⟨hsort, ?_⟩, fun x => inside_cons_cons h.sorted, fun x hx => ?_⟩
  · have heven := h.even
    rwa [length_cons, length_cons, Nat.bodd_succ, Nat.bodd_succ, Bool.not_not] at heven
  · by_contra hle
    rw [StepFunctions.inside_of_lt fun edge hedge => (not_lt.mp hle).trans_lt (hstop edge hedge)] at hx
    exact Bool.false_ne_true hx

theorem Edges.cases {segments : List ℤ} (h : Edges segments) :
    segments = [] ∨ ∃ start stop rest, segments = start :: stop :: rest ∧ start < stop ∧ Edges rest ∧
      (∀ x, inside segments x ↔ (start ≤ x ∧ x < stop) ∨ inside rest x) ∧
      ∀ x, inside rest x → stop < x := by
  match segments, h with
  | [], _ => exact .inl rfl
  | [_], h => exact absurd h.even (by simp)
  | start :: stop :: rest, h => exact .inr ⟨start, stop, rest, rfl, h.cons_cons⟩

/-- Induction over the pairs of edges. -/
@[elab_as_elim]
theorem Edges.induction {motive : List ℤ → Prop} (hnil : motive [])
    (hcons : ∀ start stop rest, start < stop → Edges rest → (∀ x, inside (start :: stop :: rest) x ↔
        (start ≤ x ∧ x < stop) ∨ inside rest x) →
      (∀ x, inside rest x → stop < x) → motive rest → motive (start :: stop :: rest)) :
    ∀ {segments : List ℤ}, Edges segments → motive segments
  | [], _ => hnil
  | [_], h => absurd h.even (by simp)
  | start :: stop :: rest, h =>
    have ⟨hlt, hrest, hin, hlater⟩ := h.cons_cons
    hcons start stop rest hlt hrest hin hlater (Edges.induction hnil hcons hrest)

theorem Edges.exists_inside {segments : List ℤ} (h : Edges segments) (hne : segments ≠ []) :
    ∃ x, inside segments x := by
  obtain ⟨start, stop, rest, -, hlt, -, hin, -⟩ := h.cases.resolve_left hne
  exact ⟨start, (hin start).mpr (.inl ⟨le_rfl, hlt⟩)⟩

def Decides (comparison : Option Bool) (result : Bool) (finding : Prop) : Prop :=
  comparison = none ∧ ¬finding ∨ comparison = some result ∧ finding

theorem Decides.congr {comparison : Option Bool} {result : Bool} {p q : Prop}
    (h : Decides comparison result p) (hpq : p ↔ q) : Decides comparison result q :=
  h.imp (And.imp_right (mt hpq.mpr)) (And.imp_right hpq.mp)

section Segments

variable {a b : List ℤ}

/-- The comparison for containment finds a part of the second span outside of the first one. -/
theorem compareSegments_contains (ha : Edges a) (hb : Edges b) :
    Decides (compareSegments compareContainsOperation a b) false
      (∃ x, inside b x ∧ ¬inside a x) := by
  induction a, b using compareSegments.induct with
  | case2 a b hshort =>
    unfold compareSegments
    rcases hb.cases with rfl | ⟨bX, bMaxX, bRest, rfl, hbX, -, hinB, -⟩
    · exact .inl ⟨by simp [compareContainsOperation], fun ⟨x, hx, _⟩ => Bool.false_ne_true hx⟩
    rcases ha.cases with rfl | ⟨aX, aMaxX, aRest, rfl, -⟩
    · exact .inr ⟨by simp [compareContainsOperation], bX, (hinB bX).mpr (.inl ⟨le_rfl, hbX⟩), nofun⟩
    · exact (hshort _ _ _ _ _ _ rfl rfl).elim
  | case1 aX aMaxX aRest bX bMaxX bRest ihLeft ihRight ihBoth =>
    obtain ⟨haX, haRest, hinA, hlaterA⟩ := ha.cons_cons
    obtain ⟨hbX, hbRest, hinB, hlaterB⟩ := hb.cons_cons
    rw [compareSegments]
    simp only [compareContainsOperation, ite_self, Option.none_or]
    by_cases houtside : bX < aX
    · rw [if_pos houtside]
      refine .inr ⟨rfl, bX, (hinB bX).mpr (.inl ⟨le_rfl, hbX⟩), fun hin => ?_⟩
      exact houtside.not_ge (le_of_inside hin)
    rw [if_neg houtside, Option.none_or]
    split_ifs with haMax hbMax
    · refine (ihLeft haRest hb).congr ⟨?_, ?_⟩
      · rintro ⟨x, hxb, hxa⟩
        by_cases hx : inside (aX :: aMaxX :: aRest) x
        · have hfst := ((hinA x).mp hx).resolve_right hxa
          have hbFirst := le_of_inside hxb
          refine ⟨aMaxX, (hinB aMaxX).mpr (.inl ⟨by omega, haMax⟩), fun hin => ?_⟩
          rcases (hinA aMaxX).mp hin with hself | hrest
          · omega
          · exact lt_irrefl _ (hlaterA aMaxX hrest)
        · exact ⟨x, hxb, hx⟩
      · rintro ⟨x, hxb, hxa⟩
        exact ⟨x, hxb, fun hrest => hxa ((hinA x).mpr (.inr hrest))⟩
    · refine (ihRight ha hbRest).congr ⟨?_, ?_⟩
      · rintro ⟨x, hxb, hxa⟩
        exact ⟨x, (hinB x).mpr (.inr hxb), hxa⟩
      · rintro ⟨x, hxb, hxa⟩
        refine ⟨x, ((hinB x).mp hxb).resolve_left fun hin => hxa ?_, hxa⟩
        exact (hinA x).mpr (.inl ⟨by omega, by omega⟩)
    · refine (ihBoth haRest hbRest).congr ⟨?_, ?_⟩
      · rintro ⟨x, hxb, hxa⟩
        have hlater := hlaterB x hxb
        refine ⟨x, (hinB x).mpr (.inr hxb), fun hin => ?_⟩
        rcases (hinA x).mp hin with hfst | hrest
        · omega
        · exact hxa hrest
      · rintro ⟨x, hxb, hxa⟩
        refine ⟨x, ((hinB x).mp hxb).resolve_left fun hin => hxa ?_, fun hrest => hxa ?_⟩
        · exact (hinA x).mpr (.inl ⟨by omega, by omega⟩)
        · exact (hinA x).mpr (.inr hrest)

/-- The comparison for intersection finds a part that both spans have. -/
theorem compareSegments_intersects (ha : Edges a) (hb : Edges b) :
    Decides (compareSegments compareIntersectsOperation a b) true
      (∃ x, inside b x ∧ inside a x) := by
  induction a, b using compareSegments.induct with
  | case2 a b hshort =>
    unfold compareSegments
    refine .inl ⟨by simp [compareIntersectsOperation], fun ⟨x, hxb, hxa⟩ => ?_⟩
    rcases hb.cases with rfl | ⟨bX, bMaxX, bRest, rfl, -⟩
    · exact Bool.false_ne_true hxb
    rcases ha.cases with rfl | ⟨aX, aMaxX, aRest, rfl, -⟩
    · exact Bool.false_ne_true hxa
    · exact hshort _ _ _ _ _ _ rfl rfl
  | case1 aX aMaxX aRest bX bMaxX bRest ihLeft ihRight ihBoth =>
    obtain ⟨haX, haRest, hinA, hlaterA⟩ := ha.cons_cons
    obtain ⟨hbX, hbRest, hinB, hlaterB⟩ := hb.cons_cons
    rw [compareSegments]
    simp only [compareIntersectsOperation, ite_self, Option.none_or]
    by_cases hlap : bMaxX > aX ∧ bX < aMaxX
    · rw [if_pos hlap, Option.some_or]
      refine .inr ⟨rfl, max aX bX, (hinB _).mpr (.inl ?_), (hinA _).mpr (.inl ?_)⟩ <;> omega
    rw [if_neg hlap, Option.none_or]
    split_ifs with haMax hbMax
    · refine (ihLeft haRest hb).congr ⟨?_, ?_⟩
      · rintro ⟨x, hxb, hxa⟩
        exact ⟨x, hxb, (hinA x).mpr (.inr hxa)⟩
      · rintro ⟨x, hxb, hxa⟩
        refine ⟨x, hxb, ((hinA x).mp hxa).resolve_left fun hin => ?_⟩
        have hbFirst := le_of_inside hxb
        omega
    · refine (ihRight ha hbRest).congr ⟨?_, ?_⟩
      · rintro ⟨x, hxb, hxa⟩
        exact ⟨x, (hinB x).mpr (.inr hxb), hxa⟩
      · rintro ⟨x, hxb, hxa⟩
        refine ⟨x, ((hinB x).mp hxb).resolve_left fun hin => ?_, hxa⟩
        have haFirst := le_of_inside hxa
        omega
    · exact absurd ⟨by omega, by omega⟩ hlap

end Segments

section Spans

variable {X Y X' Y' : Set ℤ} {aY bY : ℤ} {aSegments bSegments : List ℤ} {aRest bRest : List Row}
  {previousA previousB : List ℤ}

/-- A shape has points just above its end. -/
theorem Remaining.exists_inside {y maxY : ℤ} {previous segments next : List ℤ} {rest : List Row}
    (h : Remaining X Y previous ((y, segments) :: (maxY, next) :: rest)) :
    ∃ last x, ((maxY, next) :: rest).getLast? = some last ∧ y < last.1 ∧ maxY ≤ last.1 ∧
      inside (value segments ((maxY, next) :: rest) (last.1 - 1)) x := by
  have hlt : y < maxY := (pairwise_cons.mp h.ascending).1 (maxY, next) mem_cons_self
  induction rest generalizing y maxY previous segments next with
  | nil =>
    obtain rfl : next = [] := h.closed
    have hne : segments ≠ [] := fun hnil => h.coalesced.2.1 hnil.symm
    obtain ⟨x, hx⟩ := h.tail.edges.exists_inside hne
    refine ⟨(maxY, []), x, rfl, hlt, le_rfl, ?_⟩
    rwa [value_cons_of_lt (Int.sub_one_lt_of_le le_rfl)]
  | cons row rest ih =>
    have hnext : maxY < row.1 := (pairwise_cons.mp h.tail.ascending).1 row mem_cons_self
    obtain ⟨last, x, hlast, hlow, -, hx⟩ := ih h.tail hnext
    refine ⟨last, x, hlast, hlt.trans hlow, hlow.le, ?_⟩
    rwa [value_cons_of_le (Int.le_sub_one_of_lt hlow)]

def Found (P : List ℤ → List ℤ → Prop) (aY : ℤ) (aSegments : List ℤ) (aRest : List Row) (bY : ℤ)
    (bSegments : List ℤ) (bRest : List Row) : Prop :=
  ∃ y, aY ≤ y ∧ bY ≤ y ∧ P (value aSegments aRest y) (value bSegments bRest y)

variable {P : List ℤ → List ℤ → Prop} {aMaxY bMaxY : ℤ} {aNext bNext : List ℤ}

theorem found_comm : Found P aY aSegments aRest bY bSegments bRest ↔
    Found (fun b a => P a b) bY bSegments bRest aY aSegments aRest :=
  exists_congr fun _ => and_left_comm

theorem found_next_left (hlt : aY < aMaxY)
    (hdone : ∀ y < aMaxY, bY ≤ y → ¬P aSegments (value bSegments bRest y)) :
    Found P aMaxY aNext aRest bY bSegments bRest ↔
      Found P aY aSegments ((aMaxY, aNext) :: aRest) bY bSegments bRest := by
  constructor
  · rintro ⟨y, hya, hyb, hP⟩
    exact ⟨y, hlt.le.trans hya, hyb, by rwa [value_cons_of_le hya]⟩
  · rintro ⟨y, -, hyb, hP⟩
    rcases lt_or_ge y aMaxY with hy | hya
    · rw [value_cons_of_lt hy] at hP
      exact absurd hP (hdone y hy hyb)
    · exact ⟨y, hya, hyb, by rwa [value_cons_of_le hya] at hP⟩

theorem found_next_right (hlt : bY < bMaxY)
    (hdone : ∀ y < bMaxY, aY ≤ y → ¬P (value aSegments aRest y) bSegments) :
    Found P aY aSegments aRest bMaxY bNext bRest ↔
      Found P aY aSegments aRest bY bSegments ((bMaxY, bNext) :: bRest) :=
  found_comm.trans ((found_next_left hlt hdone).trans found_comm)

theorem found_next_both (haLt : aY < aMaxY) (hbLt : bY < aMaxY) (hdone : ¬P aSegments bSegments) :
    Found P aMaxY aNext aRest aMaxY bNext bRest ↔
      Found P aY aSegments ((aMaxY, aNext) :: aRest) bY bSegments ((aMaxY, bNext) :: bRest) := by
  refine (found_next_right hbLt fun y hlt hle => absurd hle (not_le.mpr hlt)).trans
    (found_next_left haLt fun y hlt _ => ?_)
  rwa [value_cons_of_lt hlt]

def Exceeds (aSegments bSegments : List ℤ) : Prop :=
  ∃ x, inside bSegments x = true ∧ ¬inside aSegments x = true

def Overlaps (aSegments bSegments : List ℤ) : Prop :=
  ∃ x, inside bSegments x = true ∧ inside aSegments x = true

/-- The comparison, from where the spans begin that it has come to. -/
theorem compareSpans_decides {op : CompareOperation} {result aHad bHad : Bool}
    (hop : op.aOutsideB = none)
    (hsegments : ∀ {a b}, Edges a → Edges b → Decides (compareSegments op a b) result (P a b))
    (hempty : ∀ segments, ¬P segments [])
    (ha : Remaining X Y previousA ((aY, aSegments) :: aRest))
    (hb : Remaining X' Y' previousB ((bY, bSegments) :: bRest))
    (hout : op.bOutsideA = none ∧ (∀ segments, ¬P [] segments) ∨
      op.bOutsideA = some result ∧ (∀ segments x, inside segments x → P [] segments) ∧
        (bY < aY → bSegments ≠ [] → aHad) ∧ ∀ row ∈ bRest, aY < row.1) :
    Decides (compareSpans op aHad bHad ((aY, aSegments) :: aRest) ((bY, bSegments) :: bRest)) result
      (Found P aY aSegments aRest bY bSegments bRest) := by
  induction hlen : aRest.length + bRest.length using Nat.strong_induction_on
    generalizing aY bY aSegments bSegments aRest bRest previousA previousB aHad bHad with
  | h n ih =>
    cases bRest with
    | nil =>
      obtain rfl : bSegments = [] := hb.closed
      refine .inl ⟨?_, fun ⟨y, _, _, hfound⟩ => hempty _ hfound⟩
      unfold compareSpans
      cases aRest <;> simp [hop]
    | cons bNext bRest =>
    obtain ⟨bMaxY, bNext⟩ := bNext
    have hbLt : bY < bMaxY := (pairwise_cons.mp hb.ascending).1 _ mem_cons_self
    have hbLater := (pairwise_cons.mp hb.tail.ascending).1
    cases aRest with
    | nil =>
      obtain rfl : aSegments = [] := ha.closed
      unfold compareSpans
      rcases hout with ⟨hnone, hno⟩ | ⟨hsome, hyes, -, hends⟩
      · exact .inl ⟨by simp [hnone], fun ⟨y, _, _, hfound⟩ => hno _ hfound⟩
      · obtain ⟨last, x, -, hlow, hhigh, hx⟩ := hb.exists_inside
        have hbMax : aY < bMaxY := hends _ mem_cons_self
        exact .inr ⟨by simp [hsome], last.1 - 1, by omega, by omega, hyes _ x hx⟩
    | cons aNext aRest =>
    obtain ⟨aMaxY, aNext⟩ := aNext
    have haLt : aY < aMaxY := (pairwise_cons.mp ha.ascending).1 _ mem_cons_self
    have hcheck : (if bY < aY ∧ !aHad ∧ !bSegments.isEmpty then op.bOutsideA else none) = none := by
      split_ifs with hif
      · rcases hout with ⟨hnone, -⟩ | ⟨-, -, htested, -⟩
        · exact hnone
        · obtain ⟨hlt, hhad, hne⟩ := hif
          rw [htested hlt (by simpa using hne)] at hhad
          exact absurd hhad nofun
      · rfl
    simp only [length_cons] at hlen
    rw [compareSpans]
    simp only [hop, hcheck, ite_self, Option.none_or]
    by_cases hstop : (bMaxY > aY ∧ bY < aMaxY) ∧ P aSegments bSegments
    · obtain ⟨hlap, hfound⟩ := hstop
      rw [if_pos hlap, ((hsegments ha.tail.edges hb.tail.edges).resolve_left
        fun hnone => hnone.2 hfound).1]
      refine .inr ⟨rfl, max aY bY, by omega, by omega, ?_⟩
      rwa [value_cons_of_lt (by omega), value_cons_of_lt (by omega)]
    · have hnone : (if bMaxY > aY ∧ bY < aMaxY then compareSegments op aSegments bSegments
          else none) = none := by
        split_ifs with hlap
        · exact ((hsegments ha.tail.edges hb.tail.edges).resolve_right
            fun hsome => hstop ⟨hlap, hsome.2⟩).1
        · rfl
      rw [hnone, Option.none_or]
      split_ifs with haFirst hbFirst
      · refine (ih _ ?_ ha.tail hb (hout.imp_right ?_) rfl).congr
          (found_next_left haLt fun y hy hle => ?_)
        · simp only [length_cons]
          omega
        · rintro ⟨hsome, hyes, -, hends⟩
          refine ⟨hsome, hyes, fun hlt hne => ?_,
            forall_mem_cons.mpr ⟨haFirst, fun row hrow => haFirst.trans (hbLater row hrow)⟩⟩
          obtain ⟨x, hx⟩ := hb.tail.edges.exists_inside hne
          rw [Bool.not_eq_true', isEmpty_eq_false_iff]
          rintro rfl
          exact hstop ⟨⟨hends _ mem_cons_self, hlt⟩, hyes _ x hx⟩
        · rw [value_cons_of_lt (hy.trans haFirst)]
          exact fun hfound => hstop ⟨⟨by omega, by omega⟩, hfound⟩
      · refine (ih _ ?_ ha hb.tail (hout.imp_right ?_) rfl).congr
          (found_next_right hbLt fun y hy hle => ?_)
        · simp only [length_cons]
          omega
        · rintro ⟨hsome, hyes, -, hends⟩
          obtain ⟨hbMax, hends⟩ := forall_mem_cons.mp hends
          exact ⟨hsome, hyes, fun hlt => absurd hbMax hlt.not_gt, hends⟩
        · rw [value_cons_of_lt (hy.trans hbFirst)]
          exact fun hfound => hstop ⟨⟨by omega, by omega⟩, hfound⟩
      · obtain rfl : aMaxY = bMaxY := by omega
        refine (ih _ ?_ ha.tail hb.tail (hout.imp_right fun ⟨hsome, hyes, _⟩ =>
          ⟨hsome, hyes, fun hlt => absurd hlt (lt_irrefl _), hbLater⟩) rfl).congr
          (found_next_both haLt hbLt fun hfound => ?_)
        · omega
        · exact hstop ⟨⟨by omega, by omega⟩, hfound⟩

theorem covers_cons_iff {x y : ℤ} : covers ((aY, aSegments) :: aRest) x y ↔
    aY ≤ y ∧ inside (value aSegments aRest y) x := by
  unfold covers
  rcases lt_or_ge y aY with hlt | hge
  · rw [value_cons_of_lt hlt]
    exact iff_of_false nofun fun h => absurd h.1 (not_le.mpr hlt)
  · rw [value_cons_of_le hge]
    exact (and_iff_right hge).symm

variable {aRows bRows : List Row}

theorem Canonical.exists_covers (h : Canonical X Y aRows) (hne : aRows ≠ []) :
    2 ≤ aRows.length ∧ ∃ x y, covers aRows x y := by
  match aRows, h with
  | [], _ => exact absurd rfl hne
  | [(y, segments)], h => exact absurd h.closed h.coalesced.1
  | (y, segments) :: (maxY, next) :: rest, h =>
    obtain ⟨last, x, -, hlt, -, hx⟩ := h.exists_inside
    exact ⟨by simp, x, last.1 - 1, covers_cons_iff.mpr ⟨Int.le_sub_one_of_lt hlt, hx⟩⟩

/-- The comparison for containment is right when the second shape does not begin above the first. -/
theorem compareShapes_contains (ha : Canonical X Y aRows) (hb : Canonical X' Y' bRows)
    (hfst : ∀ a ∈ aRows.head?, ∀ b ∈ bRows.head?, a.1 ≤ b.1) :
    compareShapes compareContainsOperation (ofRows aRows) (ofRows bRows) ↔
      ∀ x y, covers bRows x y → covers aRows x y := by
  unfold compareShapes
  rw [rows_ofRows, rows_ofRows]
  match aRows, bRows, ha, hb, hfst with
  | aRows, [], _, _, _ =>
    refine iff_of_true ?_ fun x y hx => absurd hx nofun
    unfold compareSpans
    simp [compareContainsOperation]
  | [], bRow :: bRest, _, hb, _ =>
    obtain ⟨hlen, x, y, hcov⟩ := hb.exists_covers (cons_ne_nil _ _)
    refine iff_of_false ?_ fun hall => Bool.false_ne_true (hall x y hcov)
    unfold compareSpans
    simp only [compareContainsOperation, if_pos hlen]
    decide
  | (aY, aSegments) :: aRest, (bY, bSegments) :: bRest, ha, hb, hfst =>
    have hle : aY ≤ bY := hfst _ rfl _ rfl
    have hends : ∀ row ∈ bRest, aY < row.1 := fun row hrow =>
      hle.trans_lt ((pairwise_cons.mp hb.ascending).1 row hrow)
    have hdecides : Decides (compareSpans _ false false _ _) _ (Found Exceeds ..) :=
      compareSpans_decides rfl compareSegments_contains (fun _ ⟨_, hx, _⟩ => Bool.false_ne_true hx) ha hb
      (.inr ⟨rfl, fun _ x hx => ⟨x, hx, nofun⟩, fun hlt => absurd hle (not_le.mpr hlt), hends⟩)
    rcases hdecides with ⟨hnone, hno⟩ | ⟨hsome, hfound⟩
    · rw [hnone]
      refine iff_of_true rfl fun x y hx => ?_
      obtain ⟨hy, hin⟩ := covers_cons_iff.mp hx
      by_contra hnot
      rw [covers_cons_iff, not_and] at hnot
      exact hno ⟨y, hle.trans hy, hy, x, hin, hnot (hle.trans hy)⟩
    · rw [hsome]
      refine iff_of_false nofun fun hall => ?_
      obtain ⟨y, hya, hyb, x, hxb, hxa⟩ := hfound
      exact hxa (covers_cons_iff.mp (hall x y (covers_cons_iff.mpr ⟨hyb, hxb⟩))).2

theorem compareShapes_intersects (ha : Canonical X Y aRows) (hb : Canonical X' Y' bRows) :
    compareShapes compareIntersectsOperation (ofRows aRows) (ofRows bRows) ↔
      ∃ x y, covers aRows x y ∧ covers bRows x y := by
  unfold compareShapes
  rw [rows_ofRows, rows_ofRows]
  match aRows, bRows, ha, hb with
  | [], bRows, _, _ =>
    refine iff_of_false ?_ fun ⟨x, y, hx, _⟩ => Bool.false_ne_true hx
    unfold compareSpans
    simp [compareIntersectsOperation]
  | aRow :: aRest, [], _, _ =>
    refine iff_of_false ?_ fun ⟨x, y, _, hx⟩ => Bool.false_ne_true hx
    unfold compareSpans
    simp [compareIntersectsOperation]
  | (aY, aSegments) :: aRest, (bY, bSegments) :: bRest, ha, hb =>
    have hdecides : Decides (compareSpans _ false false _ _) _ (Found Overlaps ..) :=
      compareSpans_decides rfl compareSegments_intersects (fun _ ⟨_, hx, _⟩ => Bool.false_ne_true hx) ha hb
      (.inl ⟨rfl, fun _ ⟨_, _, hx⟩ => Bool.false_ne_true hx⟩)
    rcases hdecides with ⟨hnone, hno⟩ | ⟨hsome, y, hya, hyb, x, hxb, hxa⟩
    · rw [hnone]
      refine iff_of_false nofun fun ⟨x, y, hxa, hxb⟩ => ?_
      obtain ⟨hya, hina⟩ := covers_cons_iff.mp hxa
      obtain ⟨hyb, hinb⟩ := covers_cons_iff.mp hxb
      exact hno ⟨y, hya, hyb, x, hinb, hina⟩
    · rw [hsome]
      exact iff_of_true rfl
        ⟨x, y, covers_cons_iff.mpr ⟨hya, hxa⟩, covers_cons_iff.mpr ⟨hyb, hxb⟩⟩

end Spans

end Shape

end WebKit.Graphics
