import WebKit.Graphics.ShapeQueries

/-!
Regions: a shape with its bounds. The operations on regions look at the bounds first and leave out
what these already decide. A region that is built from rectangles by any of the operations has the
points that the same operations on sets give, and everything that is asked of it is answered for
these points.
-/

namespace WebKit.Graphics

open List StepFunctions
open IntRect (isEmpty_iff containsPoint_iff maxX maxY contains_iff move)
open Bool (and_eq_true false_ne_true)

structure Region where
  bounds : IntRect
  shape : Shape

namespace Shape

def ofRect (rect : IntRect) : Shape :=
  (((empty.appendSpan rect.y).appendSegment rect.x).appendSegment rect.maxX).appendSpan rect.maxY

end Shape

namespace Region

def empty : Region := ⟨IntRect.empty, Shape.empty⟩

def ofRect (rect : IntRect) : Region := ⟨rect, Shape.ofRect rect⟩

variable (region : Region)

def isEmpty : Bool := region.bounds.isEmpty

def isRect : Bool := region.shape.isRect

def rects : List IntRect := Shape.rectsLoop region.shape.rows

variable (region other : Region)

def contains : Bool :=
  if !region.bounds.contains other.bounds then false
  else Shape.compareShapes Shape.compareContainsOperation region.shape other.shape

def containsPoint (px py : ℤ) : Bool :=
  if !region.bounds.containsPoint px py then false
  else Shape.containsLoop px py region.shape.rows

def intersects : Bool :=
  if !region.bounds.intersects other.bounds then false
  else Shape.compareShapes Shape.compareIntersectsOperation region.shape other.shape

def intersect : Region :=
  if region.bounds.isEmpty then region
  else if !region.bounds.intersects other.bounds then empty
  else
    let intersectedShape := Shape.intersectShapes region.shape other.shape
    ⟨intersectedShape.bounds, intersectedShape⟩

def unite : Region :=
  if other.isEmpty then region
  else if region.isRect && region.bounds.contains other.bounds then region
  else if other.isRect && other.bounds.contains region.bounds then other
  else if !region.isRect && region.contains other then region
  else ⟨region.bounds.unite other.bounds, Shape.unionShapes region.shape other.shape⟩

def subtract : Region :=
  if region.bounds.isEmpty then region
  else if other.isEmpty then region
  else if !region.bounds.intersects other.bounds then region
  else
    let subtractedShape := Shape.subtractShapes region.shape other.shape
    ⟨subtractedShape.bounds, subtractedShape⟩

def translate (width height : ℤ) : Region :=
  ⟨region.bounds.move width height, region.shape.translate width height⟩

def points : Set (ℤ × ℤ) :=
  {p | Shape.covers region.shape.rows p.1 p.2 = true}

end Region

inductive History where
  | empty
  | rect (rect : IntRect)
  | unite (region other : History)
  | intersect (region other : History)
  | subtract (region other : History)
  | translate (region : History) (width height : ℤ)

namespace History

def region : History → Region
  | empty => Region.empty
  | rect r => Region.ofRect r
  | unite a b => a.region.unite b.region
  | intersect a b => a.region.intersect b.region
  | subtract a b => a.region.subtract b.region
  | translate a width height => a.region.translate width height

def points : History → Set (ℤ × ℤ)
  | empty => ∅
  | rect r => {p | r.containsPoint p.1 p.2 = true}
  | unite a b => a.points ∪ b.points
  | intersect a b => a.points ∩ b.points
  | subtract a b => a.points \ b.points
  | translate a width height => {p | (p.1 - width, p.2 - height) ∈ a.points}

def xs : History → List ℤ
  | empty => []
  | rect r => [r.x, r.maxX]
  | unite a b => a.xs ++ b.xs
  | intersect a b => a.xs ++ b.xs
  | subtract a b => a.xs ++ b.xs
  | translate a width _ => a.xs.map (· + width)

def ys : History → List ℤ
  | empty => []
  | rect r => [r.y, r.maxY]
  | unite a b => a.ys ++ b.ys
  | intersect a b => a.ys ++ b.ys
  | subtract a b => a.ys ++ b.ys
  | translate a _ height => a.ys.map (· + height)

/-- The rectangles are not empty, and their sides stay in the range of `int` where they are moved. -/
def Fits : History → Prop
  | empty => True
  | rect r => r.isEmpty = false ∧ ∀ x ∈ [r.x, r.maxX, r.y, r.maxY],
      Shape.intMin ≤ x ∧ x ≤ Shape.intMax
  | unite a b => a.Fits ∧ b.Fits
  | intersect a b => a.Fits ∧ b.Fits
  | subtract a b => a.Fits ∧ b.Fits
  | translate a width height => a.Fits ∧
      (∀ x ∈ a.xs, Shape.intMin ≤ x + width ∧ x + width ≤ Shape.intMax) ∧
      ∀ y ∈ a.ys, Shape.intMin ≤ y + height ∧ y + height ≤ Shape.intMax

end History

namespace Region

open Shape

variable {X Y X' Y' : Set ℤ} {region other : Region} {rows otherRows : List Row}

structure Represents (X Y : Set ℤ) (region : Region) (rows : List Row) : Prop where
  canonical : Canonical X Y rows
  shape_eq : region.shape = ofRows rows
  bounds : Bounds region.bounds rows

section

variable (h : Represents X Y region rows)

include h

theorem Represents.mem_points {p : ℤ × ℤ} : p ∈ region.points ↔ covers rows p.1 p.2 := by
  rw [points, h.shape_eq, rows_ofRows]
  rfl

theorem Represents.isEmpty_iff : region.isEmpty ↔ rows = [] := by
  refine ⟨fun hempty => ?_, h.bounds.empty⟩
  by_contra hne
  obtain ⟨-, x, y, hcov⟩ := h.canonical.exists_covers hne
  have hin := h.bounds.contains x y hcov
  have hsize := IntRect.isEmpty_iff.mp hempty
  rw [IntRect.containsPoint_iff] at hin
  simp only [IntRect.maxX, IntRect.maxY] at hin
  omega

/-- A region that is a rectangle has all the points of its bounds. -/
theorem Represents.covers_of_isRect (hrect : region.isRect)
    (hne : rows ≠ []) {x y : ℤ} (hin : region.bounds.containsPoint x y) :
    covers rows x y := by
  have hcanon := h.canonical
  rw [isRect, Shape.isRect, h.shape_eq, and_eq_true, decide_eq_true_eq, decide_eq_true_eq] at hrect
  match rows, hcanon with
  | [], _ => exact absurd rfl hne
  | [_], hcanon => exact absurd hcanon.closed hcanon.coalesced.1
  | _ :: _ :: _ :: _, _ => simp [ofRows, spansOf] at hrect
  | [(top, segments), (bottom, [])], hcanon =>
    obtain ⟨left, right, rest, rfl, -, hrest, hinside, hlater⟩ :=
      hcanon.tail.edges.cases.resolve_left hcanon.coalesced.1
    obtain rfl : rest = [] := by
      have hlen := hrect.2
      simp only [ofRows, flatMap_cons, flatMap_nil, append_nil, length_cons] at hlen
      exact eq_nil_of_length_eq_zero (by omega)
    have hcov : ∀ px py, covers [(top, [left, right]), (bottom, [])] px py ↔
        (left ≤ px ∧ px < right) ∧ top ≤ py ∧ py < bottom := by
      intro px py
      rw [covers_cons_iff]
      rcases lt_or_ge py bottom with hlt | hge
      · rw [value_cons_of_lt hlt, hinside, inside_nil]
        simp [hlt, and_comm]
      · rw [value_cons_of_le hge, value_nil, inside_nil]
        simp [not_lt.mpr hge]
    obtain ⟨yl, hleft⟩ := h.bounds.left hne
    obtain ⟨yr, hright⟩ := h.bounds.right hne
    obtain ⟨xt, htop⟩ := h.bounds.top hne
    obtain ⟨xb, hbottom⟩ := h.bounds.bottom hne
    rw [hcov] at hleft hright htop hbottom ⊢
    rw [containsPoint_iff] at hin
    omega

theorem Represents.covers_of_contains (hrect : region.isRect)
    (hoth : Represents X' Y' other otherRows)
    (hcont : region.bounds.contains other.bounds) {x y : ℤ}
    (hcov : covers otherRows x y) : covers rows x y := by
  have hin := hoth.bounds.contains x y hcov
  rw [contains_iff] at hcont
  rw [containsPoint_iff] at hin
  refine h.covers_of_isRect hrect ?_ (containsPoint_iff.mpr (by omega))
  rintro rfl
  have hempty := IntRect.isEmpty_iff.mp (h.bounds.empty rfl)
  simp only [maxX, maxY] at hcont hin
  omega

section

variable (hoth : Represents X' Y' other otherRows)

include hoth

/-- The answer to whether a region is inside of another one. -/
theorem Represents.contains_iff (hne : otherRows ≠ []) :
    region.contains other ↔ ∀ x y, covers otherRows x y → covers rows x y := by
  unfold contains
  split_ifs with hbds
  · refine iff_of_false (fun hfalse => hfalse) fun hall => ?_
    rw [hoth.bounds.contains_of_forall hne fun x y hcov => h.bounds.contains x y (hall x y hcov)]
      at hbds
    exact false_ne_true hbds
  · rw [h.shape_eq, hoth.shape_eq]
    refine compareShapes_contains h.canonical hoth.canonical fun a ha b hb => ?_
    obtain ⟨rest, rfl⟩ := head?_eq_some_iff.mp ha
    obtain ⟨otherRest, rfl⟩ := head?_eq_some_iff.mp hb
    rw [Bool.not_eq_true', Bool.not_eq_false, contains_iff] at hbds
    obtain ⟨xt, htop⟩ := h.bounds.top (cons_ne_nil _ _)
    obtain ⟨x, hx⟩ := hoth.canonical.tail.edges.exists_inside hoth.canonical.coalesced.1
    have hfst := hoth.bounds.contains x b.1
      ((hoth.canonical.covers_row mem_cons_self).trans hx)
    have habove := (covers_cons_iff.mp htop).1
    rw [containsPoint_iff] at hfst
    omega

theorem Represents.intersects_of_covers {x y : ℤ} (hcov : covers rows x y)
    (hcov' : covers otherRows x y) : region.bounds.intersects other.bounds := by
  have hin := h.bounds.contains x y hcov
  have hin' := hoth.bounds.contains x y hcov'
  rw [containsPoint_iff] at hin hin'
  simp only [IntRect.intersects, and_eq_true, Bool.not_eq_true', decide_eq_true_eq,
    IntRect.isEmpty, Bool.or_eq_false_iff, decide_eq_false_iff_not]
  simp only [maxX, maxY] at *
  omega

theorem Represents.intersects_iff :
    region.intersects other ↔ ∃ x y, covers rows x y ∧ covers otherRows x y := by
  unfold intersects
  split_ifs with hbds
  · refine iff_of_false (fun hfalse => hfalse) fun ⟨x, y, hcov, hcov'⟩ => ?_
    rw [h.intersects_of_covers hoth hcov hcov'] at hbds
    exact false_ne_true hbds
  · rw [h.shape_eq, hoth.shape_eq]
    exact compareShapes_intersects h.canonical hoth.canonical

/-- A region is determined by its points, if it has any. -/
theorem Represents.eq_of_points_eq
    (hne : region.points.Nonempty) (heq : region.points = other.points) : region = other := by
  have hcov (x y : ℤ) : covers rows x y = covers otherRows x y := by
    rw [Bool.eq_iff_iff, ← h.mem_points (p := (x, y)), heq, hoth.mem_points]
  obtain rfl := h.canonical.eq_of_covers hoth.canonical hcov
  have hrows : rows ≠ [] := by
    rintro rfl
    obtain ⟨p, hp⟩ := hne
    exact false_ne_true (h.mem_points.mp hp)
  have hsub := IntRect.contains_iff.mp (h.bounds.contains_of_forall hrows hoth.bounds.contains)
  have hsub' := IntRect.contains_iff.mp (hoth.bounds.contains_of_forall hrows h.bounds.contains)
  have hshape := h.shape_eq.trans hoth.shape_eq.symm
  obtain ⟨⟨x, y, width, height⟩, shape⟩ := region
  obtain ⟨⟨x', y', width', height'⟩, shape'⟩ := other
  simp only [maxX, maxY] at hsub hsub'
  simp only [Region.mk.injEq, IntRect.mk.injEq]
  exact ⟨by omega, hshape⟩

end

theorem Represents.mono (hX : X ⊆ X') (hY : Y ⊆ Y') : Represents X' Y' region rows := by
  refine ⟨?_, h.shape_eq, h.bounds⟩
  have hcanon := h.canonical
  exact ⟨hcanon.ascending, hcanon.coalesced, hcanon.closed, fun row hrow =>
    ⟨hY (hcanon.within row hrow).y_mem, (hcanon.within row hrow).edges,
      fun x hx => hX ((hcanon.within row hrow).x_mem x hx)⟩, edges_nil, nofun⟩

end

theorem represents_empty (X Y : Set ℤ) : Represents X Y empty [] :=
  ⟨⟨List.Pairwise.nil, trivial, rfl, nofun, edges_nil, nofun⟩, rfl, nofun, by simp, by simp, by simp,
    by simp, fun _ => rfl⟩

def IntRange (X : Set ℤ) : Prop := ∀ x ∈ X, intMin ≤ x ∧ x ≤ intMax

section

variable (h : Represents X Y region rows) (hoth : Represents X Y other otherRows)
  (hint : IntRange X)

include h hoth hint

theorem Represents.intersect : ∃ result, Represents X Y (region.intersect other) result ∧
      ∀ x y, covers result x y = (covers rows x y && covers otherRows x y) := by
  unfold Region.intersect
  split_ifs with hempty hbds
  · obtain rfl := h.isEmpty_iff.mp hempty
    exact ⟨[], h, fun x y => rfl⟩
  · refine ⟨[], represents_empty X Y, fun x y => ?_⟩
    refine (Bool.eq_false_iff.mpr fun hboth => ?_).symm
    rw [and_eq_true] at hboth
    rw [h.intersects_of_covers hoth hboth.1 hboth.2] at hbds
    exact false_ne_true hbds
  · obtain ⟨result, hres, hcanon, hcov⟩ := intersectShapes_spec h.canonical hoth.canonical
    refine ⟨result, ?_, hcov⟩
    simp only [h.shape_eq, hoth.shape_eq, hres]
    exact ⟨hcanon, rfl, bounds_spec hcanon hint⟩

theorem Represents.subtract : ∃ result, Represents X Y (region.subtract other) result ∧
      ∀ x y, covers result x y = (covers rows x y && !covers otherRows x y) := by
  unfold Region.subtract
  split_ifs with hempty hothEmp hbds
  · obtain rfl := h.isEmpty_iff.mp hempty
    exact ⟨[], h, fun x y => rfl⟩
  · obtain rfl := hoth.isEmpty_iff.mp hothEmp
    exact ⟨rows, h, fun x y => (Bool.and_true _).symm⟩
  · refine ⟨rows, h, fun x y => ?_⟩
    cases hcov : covers rows x y with
    | false => rfl
    | true =>
      cases hcov' : covers otherRows x y with
      | false => rfl
      | true =>
        rw [h.intersects_of_covers hoth hcov hcov'] at hbds
        exact absurd hbds nofun
  · obtain ⟨result, hres, hcanon, hcov⟩ := subtractShapes_spec h.canonical hoth.canonical
    refine ⟨result, ?_, hcov⟩
    simp only [h.shape_eq, hoth.shape_eq, hres]
    exact ⟨hcanon, rfl, bounds_spec hcanon hint⟩

end

theorem Represents.bounds_unite {result : List Row} (h : Represents X Y region rows)
    (hoth : Represents X Y other otherRows) (hres : Canonical X Y result)
    (hcov : ∀ x y, covers result x y = (covers rows x y || covers otherRows x y)) :
    Bounds (region.bounds.unite other.bounds) result := by
  unfold IntRect.unite
  split_ifs with hothEmp hempty
  · obtain rfl := hoth.isEmpty_iff.mp hothEmp
    obtain rfl := hres.eq_of_covers h.canonical fun x y => (hcov x y).trans (Bool.or_false _)
    exact h.bounds
  · obtain rfl := h.isEmpty_iff.mp hempty
    obtain rfl := hres.eq_of_covers hoth.canonical hcov
    exact hoth.bounds
  · have hne : rows ≠ [] := fun hnil => hempty (h.isEmpty_iff.mpr hnil)
    have hothNe : otherRows ≠ [] := fun hnil => hothEmp (hoth.isEmpty_iff.mpr hnil)
    have hinl : ∀ {x y}, covers rows x y → covers result x y := fun hcovd => by
      rw [hcov, hcovd, Bool.true_or]
    have hinr : ∀ {x y}, covers otherRows x y → covers result x y := fun hcovd => by
      rw [hcov, hcovd, Bool.or_true]
    obtain ⟨yl, hleft⟩ := h.bounds.left hne
    obtain ⟨yr, hright⟩ := h.bounds.right hne
    obtain ⟨xt, htop⟩ := h.bounds.top hne
    obtain ⟨xb, hbottom⟩ := h.bounds.bottom hne
    obtain ⟨yl', hleft'⟩ := hoth.bounds.left hothNe
    obtain ⟨yr', hright'⟩ := hoth.bounds.right hothNe
    obtain ⟨xt', htop'⟩ := hoth.bounds.top hothNe
    obtain ⟨xb', hbottom'⟩ := hoth.bounds.bottom hothNe
    set l := min region.bounds.x other.bounds.x
    set t := min region.bounds.y other.bounds.y
    set r := max region.bounds.maxX other.bounds.maxX
    set b := max region.bounds.maxY other.bounds.maxY
    have hr : maxX ⟨l, t, r - l, b - t⟩ = r := by
      simp only [maxX]
      omega
    have hb : maxY ⟨l, t, r - l, b - t⟩ = b := by
      simp only [maxY]
      omega
    refine ⟨fun x y hcovd => ?_, fun _ => ?_, fun _ => ?_, fun _ => ?_, fun _ => ?_, ?_⟩
    · rw [hcov, Bool.or_eq_true] at hcovd
      rw [containsPoint_iff, hr, hb]
      rcases hcovd with hcovd | hcovd
      · have hin := containsPoint_iff.mp (h.bounds.contains x y hcovd)
        simp only
        omega
      · have hin := containsPoint_iff.mp (hoth.bounds.contains x y hcovd)
        simp only
        omega
    · rcases min_choice region.bounds.x other.bounds.x with hmin | hmin
      · exact ⟨yl, hinl (by simp only [l, hmin]; exact hleft)⟩
      · exact ⟨yl', hinr (by simp only [l, hmin]; exact hleft')⟩
    · rw [hr]
      rcases max_choice region.bounds.maxX other.bounds.maxX with hmax | hmax
      · exact ⟨yr, hinl (by simp only [r, hmax]; exact hright)⟩
      · exact ⟨yr', hinr (by simp only [r, hmax]; exact hright')⟩
    · rcases min_choice region.bounds.y other.bounds.y with hmin | hmin
      · exact ⟨xt, hinl (by simp only [t, hmin]; exact htop)⟩
      · exact ⟨xt', hinr (by simp only [t, hmin]; exact htop')⟩
    · rw [hb]
      rcases max_choice region.bounds.maxY other.bounds.maxY with hmax | hmax
      · exact ⟨xb, hinl (by simp only [b, hmax]; exact hbottom)⟩
      · exact ⟨xb', hinr (by simp only [b, hmax]; exact hbottom')⟩
    · rintro rfl
      cases hinl hleft

theorem Represents.unite (h : Represents X Y region rows) (hoth : Represents X Y other otherRows) :
    ∃ result, Represents X Y (region.unite other) result ∧
      ∀ x y, covers result x y = (covers rows x y || covers otherRows x y) := by
  have habsorb : ∀ {rows otherRows}, (∀ x y, covers otherRows x y →
      covers rows x y = true) → ∀ x y, covers rows x y = (covers rows x y || covers otherRows x y) := by
    intro rows otherRows hall x y
    cases hcov : covers otherRows x y with
    | false => rw [Bool.or_false]
    | true => rw [hall x y hcov, Bool.or_true]
  unfold Region.unite
  split_ifs with hempty hrect hothRect hcont
  · obtain rfl := hoth.isEmpty_iff.mp hempty
    exact ⟨rows, h, habsorb fun x y hfalse => absurd hfalse nofun⟩
  · rw [and_eq_true] at hrect
    exact ⟨rows, h, habsorb fun x y => h.covers_of_contains hrect.1 hoth hrect.2⟩
  · rw [and_eq_true] at hothRect
    refine ⟨otherRows, hoth, fun x y => ?_⟩
    rw [Bool.or_comm]
    exact habsorb (fun x y => hoth.covers_of_contains hothRect.1 h hothRect.2) x y
  · rw [and_eq_true] at hcont
    have hne : otherRows ≠ [] := fun hnil => hempty (hoth.isEmpty_iff.mpr hnil)
    exact ⟨rows, h, habsorb ((h.contains_iff hoth hne).mp hcont.2)⟩
  · obtain ⟨result, hres, hcanon, hcov⟩ := unionShapes_spec h.canonical hoth.canonical
    refine ⟨result, ⟨hcanon, ?_, h.bounds_unite hoth hcanon hcov⟩, hcov⟩
    simp only [h.shape_eq, hoth.shape_eq, hres]

section Translation

variable (width height : ℤ)

def shiftRow (row : Row) : Row := (row.1 + height, row.2.map (· + width))

theorem translate_ofRows (rows : List Row) :
    (ofRows rows).translate width height = ofRows (rows.map (shiftRow width height)) := by
  have hspans : ∀ index, (spansOf index rows).map (fun span => { span with y := span.y + height }) =
      spansOf index (rows.map (shiftRow width height)) := by
    induction rows with
    | nil => exact fun _ => rfl
    | cons row rest ih =>
      intro index
      rw [spansOf, map_cons, map_cons, spansOf, ih]
      simp only [shiftRow, length_map]
  simp only [Shape.translate, ofRows, hspans, map_flatMap, flatMap_map, shiftRow]

theorem inside_shift (segments : List ℤ) (x : ℤ) :
    inside (segments.map (· + width)) x = inside segments (x - width) := by
  induction segments with
  | nil => rfl
  | cons edge rest ih =>
    rw [map_cons, inside, inside, ih]
    congr 1
    exact decide_eq_decide.mpr (by omega)

theorem value_shift (first : List ℤ) (rows : List Row) (y : ℤ) :
    value (first.map (· + width)) (rows.map (shiftRow width height)) y =
      (value first rows (y - height)).map (· + width) := by
  induction rows generalizing first with
  | nil => rfl
  | cons row rest ih =>
    rw [map_cons]
    rcases lt_or_ge y (row.1 + height) with hlt | hge
    · rw [shiftRow, value_cons_of_lt hlt, value_cons_of_lt (by omega)]
    · rw [shiftRow, value_cons_of_le hge, ih, value_cons_of_le (by omega)]

theorem covers_shift (rows : List Row) (x y : ℤ) :
    covers (rows.map (shiftRow width height)) x y = covers rows (x - width) (y - height) := by
  have hval := value_shift width height [] rows y
  rw [map_nil] at hval
  rw [covers, hval, inside_shift, covers]

theorem edges_shift {segments : List ℤ} (h : Edges segments) : Edges (segments.map (· + width)) := by
  refine ⟨pairwise_map.mpr (h.sorted.imp fun hlt => ?_), by rw [length_map, h.even]⟩
  omega

theorem remaining_shift {segments : List ℤ} {rows : List Row} (h : Remaining X Y segments rows)
    (hX : ∀ x ∈ X, x + width ∈ X') (hY : ∀ y ∈ Y, y + height ∈ Y') :
    Remaining X' Y' (segments.map (· + width)) (rows.map (shiftRow width height)) := by
  have hmem : ∀ {segments : List ℤ}, (∀ x ∈ segments, x ∈ X) →
      ∀ x ∈ segments.map (· + width), x ∈ X' := by
    intro segments hall x hx
    obtain ⟨edge, hedge, rfl⟩ := mem_map.mp hx
    exact hX edge (hall edge hedge)
  refine ⟨?_, ?_, ?_, fun row hrow => ?_, edges_shift width h.edges, hmem h.x_mem⟩
  · refine pairwise_map.mpr (h.ascending.imp fun hlt => ?_)
    simp only [shiftRow]
    omega
  · have hcoal := h.coalesced
    clear h
    induction rows generalizing segments with
    | nil => trivial
    | cons row rest ih =>
      refine ⟨fun heq => hcoal.1 ?_, ih hcoal.2⟩
      exact map_injective_iff.mpr (add_left_injective width) heq
  · have hclosed := h.closed
    clear h
    induction rows generalizing segments with
    | nil =>
      rw [map_nil, lastValue, show segments = [] from hclosed, map_nil]
    | cons row rest ih => exact ih hclosed
  · obtain ⟨before, hbefore, rfl⟩ := mem_map.mp hrow
    obtain ⟨hy, hedges, hx⟩ := h.within before hbefore
    exact ⟨hY before.1 hy, edges_shift width hedges, hmem hx⟩

theorem Represents.translate (h : Represents X Y region rows) (hX : ∀ x ∈ X, x + width ∈ X')
    (hY : ∀ y ∈ Y, y + height ∈ Y') :
    Represents X' Y' (region.translate width height) (rows.map (shiftRow width height)) := by
  have hne : rows.map (shiftRow width height) ≠ [] → rows ≠ [] := fun hmap hnil => hmap (by rw [hnil]; rfl)
  have hback : ∀ a b : ℤ, a + b - b = a := fun a b => by omega
  refine ⟨remaining_shift width height h.canonical hX hY, ?_, ?_, fun hr => ?_, fun hr => ?_,
    fun hr => ?_, fun hr => ?_, fun hr => ?_⟩
  · rw [Region.translate, h.shape_eq, translate_ofRows]
  · intro x y hcov
    rw [covers_shift] at hcov
    have hin := containsPoint_iff.mp (h.bounds.contains _ _ hcov)
    rw [containsPoint_iff]
    simp only [Region.translate, move, maxX, maxY] at hin ⊢
    omega
  · obtain ⟨y, hy⟩ := h.bounds.left (hne hr)
    refine ⟨y + height, ?_⟩
    rw [covers_shift, Region.translate, move, hback, hback]
    exact hy
  · obtain ⟨y, hy⟩ := h.bounds.right (hne hr)
    refine ⟨y + height, ?_⟩
    have hx : (region.translate width height).bounds.maxX - 1 - width = region.bounds.maxX - 1 := by
      simp only [Region.translate, move, maxX]
      omega
    rw [covers_shift, hx, hback]
    exact hy
  · obtain ⟨x, hx⟩ := h.bounds.top (hne hr)
    refine ⟨x + width, ?_⟩
    rw [covers_shift, Region.translate, move, hback, hback]
    exact hx
  · obtain ⟨x, hx⟩ := h.bounds.bottom (hne hr)
    refine ⟨x + width, ?_⟩
    have hy : (region.translate width height).bounds.maxY - 1 - height = region.bounds.maxY - 1 := by
      simp only [Region.translate, move, maxY]
      omega
    rw [covers_shift, hy, hback]
    exact hx
  · exact h.bounds.empty (map_eq_nil_iff.mp hr)

end Translation

theorem represents_ofRect {rect : IntRect} (hrect : rect.isEmpty = false) :
    Represents {x | x ∈ [rect.x, rect.maxX]} {y | y ∈ [rect.y, rect.maxY]} (ofRect rect)
        [(rect.y, [rect.x, rect.maxX]), (rect.maxY, [])] ∧
      ∀ x y, covers [(rect.y, [rect.x, rect.maxX]), (rect.maxY, [])] x y = rect.containsPoint x y := by
  rw [← Bool.not_eq_true, IntRect.isEmpty_iff] at hrect
  have hwidth : rect.x < rect.maxX := by
    simp only [maxX]
    omega
  have hheight : rect.y < rect.maxY := by
    simp only [maxY]
    omega
  have hedges : Edges [rect.x, rect.maxX] := ⟨pairwise_pair.mpr hwidth, by simp⟩
  have hcov : ∀ x y, covers [(rect.y, [rect.x, rect.maxX]), (rect.maxY, [])] x y =
      rect.containsPoint x y := by
    intro x y
    rw [Bool.eq_iff_iff, covers_cons_iff, containsPoint_iff]
    rcases lt_or_ge y rect.maxY with hlt | hge
    · rw [value_cons_of_lt hlt, inside_cons_cons hedges.sorted, inside_nil]
      simp only [Bool.false_eq_true, or_false]
      omega
    · rw [value_cons_of_le hge, value_nil, inside_nil]
      simp only [Bool.false_eq_true, and_false, false_iff]
      omega
  have hin : ∀ x y, rect.x ≤ x → x < rect.maxX → rect.y ≤ y → y < rect.maxY →
      covers [(rect.y, [rect.x, rect.maxX]), (rect.maxY, [])] x y := fun x y h1 h2 h3 h4 => by
    rw [hcov]
    exact containsPoint_iff.mpr ⟨h1, h2, h3, h4⟩
  refine ⟨⟨⟨?_, ?_, rfl, ?_, edges_nil, forall_mem_nil _⟩, rfl, ?_⟩, hcov⟩
  · exact pairwise_pair.mpr hheight
  · exact ⟨cons_ne_nil _ _, (cons_ne_nil _ _).symm, trivial⟩
  · intro row hrow
    rcases mem_cons.mp hrow with rfl | hrow
    · exact ⟨by simp, hedges, fun x hx => hx⟩
    · rw [mem_singleton.mp hrow]
      exact ⟨by simp, edges_nil, forall_mem_nil _⟩
  · refine ⟨fun x y hcovd => (hcov x y).symm.trans hcovd,
      fun _ => ⟨rect.y, hin _ _ le_rfl hwidth le_rfl hheight⟩,
      fun _ => ⟨rect.y, hin (rect.maxX - 1) _ (by omega) (by omega) le_rfl hheight⟩,
      fun _ => ⟨rect.x, hin _ _ le_rfl hwidth le_rfl hheight⟩,
      fun _ => ⟨rect.x, hin _ (rect.maxY - 1) le_rfl hwidth (by omega) (by omega)⟩,
      fun hnil => absurd hnil (cons_ne_nil _ _)⟩

structure Agrees (region : Region) (expected : Set (ℤ × ℤ)) : Prop where
  points_eq : region.points = expected
  containsPoint_iff : ∀ p : ℤ × ℤ, region.containsPoint p.1 p.2 = true ↔ p ∈ expected
  rects_nonempty : ∀ rect ∈ region.rects, rect.isEmpty = false
  rects_apart : region.rects.Pairwise IntRect.Apart
  rects_cover : ∀ p : ℤ × ℤ, (∃ rect ∈ region.rects, rect.containsPoint p.1 p.2 = true) ↔ p ∈ expected
  bounds_contains : ∀ p ∈ expected, region.bounds.containsPoint p.1 p.2 = true
  bounds_least : ∀ rect : IntRect, (∀ p ∈ expected, rect.containsPoint p.1 p.2 = true) →
    ∀ p : ℤ × ℤ, region.bounds.containsPoint p.1 p.2 = true → rect.containsPoint p.1 p.2 = true

theorem Represents.agrees (h : Represents X Y region rows) : region.Agrees region.points := by
  have hrects : (∀ rect ∈ rectsLoop rows, rect.isEmpty = false) ∧
      (rectsLoop rows).Pairwise IntRect.Apart ∧
      ∀ px py, (∃ rect ∈ rectsLoop rows, rect.containsPoint px py) ↔ covers rows px py := by
    cases rows with
    | nil => exact ⟨nofun, List.Pairwise.nil, fun px py => iff_of_false nofun nofun⟩
    | cons row rest =>
      obtain ⟨hnonempty, happart, hcov⟩ := rectsLoop_spec h.canonical
      exact ⟨fun rect hrect => (hnonempty rect hrect).1, happart, hcov⟩
  have hloop : region.rects = rectsLoop rows := by
    rw [rects, h.shape_eq, rows_ofRows]
  refine ⟨rfl, fun p => ?_, hloop ▸ hrects.1, hloop ▸ hrects.2.1, fun p => ?_, fun p hp => ?_,
    fun rect hall p hp => ?_⟩
  · rw [h.mem_points, containsPoint, h.shape_eq, rows_ofRows, containsLoop_eq_covers h.canonical]
    split_ifs with hbds
    · refine iff_of_false (fun hfalse => hfalse) fun hcov => ?_
      rw [h.bounds.contains p.1 p.2 hcov] at hbds
      exact false_ne_true hbds
    · exact Iff.rfl
  · rw [hloop, hrects.2.2, h.mem_points]
  · exact h.bounds.contains p.1 p.2 (h.mem_points.mp hp)
  · have hne : rows ≠ [] := by
      rintro rfl
      have hempty := IntRect.isEmpty_iff.mp (h.bounds.empty rfl)
      rw [containsPoint_iff] at hp
      simp only [maxX, maxY] at hp
      omega
    have hsub := IntRect.contains_iff.mp <| h.bounds.contains_of_forall hne fun x y hcov =>
      hall (x, y) (h.mem_points.mpr hcov)
    rw [containsPoint_iff] at hp ⊢
    omega

end Region

namespace History

open Region Shape

/-- Both regions of an operation have coordinates among those of the two histories. -/
theorem represents_of_append {a b : History} {rows : List Row}
    (h : Represents {x | x ∈ a.xs} {y | y ∈ a.ys} a.region rows) :
    Represents {x | x ∈ a.xs ++ b.xs} {y | y ∈ a.ys ++ b.ys} a.region rows :=
  h.mono (fun _ hx => mem_append_left _ hx) fun _ hy => mem_append_left _ hy

theorem represents_append_of {a b : History} {rows : List Row}
    (h : Represents {x | x ∈ b.xs} {y | y ∈ b.ys} b.region rows) :
    Represents {x | x ∈ a.xs ++ b.xs} {y | y ∈ a.ys ++ b.ys} b.region rows :=
  h.mono (fun _ hx => mem_append_right _ hx) fun _ hy => mem_append_right _ hy

theorem intRange_append {xs ys : List ℤ} (hxs : IntRange {x | x ∈ xs}) (hys : IntRange {x | x ∈ ys}) :
    IntRange {x | x ∈ xs ++ ys} :=
  fun x hx => (mem_append.mp hx).elim (hxs x) (hys x)

/-- Every history builds a region with the points that it should have. -/
theorem exists_represents (history : History) (h : history.Fits) : IntRange {x | x ∈ history.xs} ∧
      ∃ rows, Represents {x | x ∈ history.xs} {y | y ∈ history.ys} history.region rows ∧
        ∀ x y, covers rows x y ↔ (x, y) ∈ history.points := by
  induction history with
  | empty => exact ⟨nofun, [], represents_empty _ _, fun x y => iff_of_false nofun nofun⟩
  | rect r =>
    obtain ⟨hempty, hint⟩ := h
    obtain ⟨hrep, hcov⟩ := represents_ofRect hempty
    refine ⟨fun x hx => hint x ?_, _, hrep, fun x y => by rw [hcov]; rfl⟩
    exact mem_append_left [r.y, r.maxY] hx
  | unite a b iha ihb =>
    obtain ⟨hintA, rowsA, ha, hcovA⟩ := iha h.1
    obtain ⟨hintB, rowsB, hb, hcovB⟩ := ihb h.2
    obtain ⟨rows, hrows, hcov⟩ := (represents_of_append ha).unite (represents_append_of hb)
    refine ⟨intRange_append hintA hintB, rows, hrows, fun x y => ?_⟩
    rw [hcov, Bool.or_eq_true, hcovA, hcovB]
    rfl
  | intersect a b iha ihb =>
    obtain ⟨hintA, rowsA, ha, hcovA⟩ := iha h.1
    obtain ⟨hintB, rowsB, hb, hcovB⟩ := ihb h.2
    have hint := intRange_append hintA hintB
    obtain ⟨rows, hrows, hcov⟩ := (represents_of_append ha).intersect (represents_append_of hb) hint
    refine ⟨hint, rows, hrows, fun x y => ?_⟩
    rw [hcov, and_eq_true, hcovA, hcovB]
    rfl
  | subtract a b iha ihb =>
    obtain ⟨hintA, rowsA, ha, hcovA⟩ := iha h.1
    obtain ⟨hintB, rowsB, hb, hcovB⟩ := ihb h.2
    have hint := intRange_append hintA hintB
    obtain ⟨rows, hrows, hcov⟩ := (represents_of_append ha).subtract (represents_append_of hb) hint
    refine ⟨hint, rows, hrows, fun x y => ?_⟩
    rw [hcov, and_eq_true, Bool.not_eq_true', ← Bool.not_eq_true, hcovA, hcovB]
    rfl
  | translate a width height ih =>
    obtain ⟨hfits, hx, hy⟩ := h
    obtain ⟨-, rows, hrows, hcov⟩ := ih hfits
    refine ⟨fun x hmem => ?_, _, hrows.translate width height (fun x hmem => ?_) fun y hmem => ?_,
      fun x y => ?_⟩
    · obtain ⟨before, hbefore, rfl⟩ := mem_map.mp hmem
      exact hx before hbefore
    · exact mem_map.mpr ⟨x, hmem, rfl⟩
    · exact mem_map.mpr ⟨y, hmem, rfl⟩
    · rw [covers_shift, hcov]
      rfl

/-- Every region that is built from rectangles agrees with the points that it should have, and
questions about two regions are answered for their points. -/
theorem region_correct (a b : History) (ha : a.Fits) (hb : b.Fits) : a.region.Agrees a.points ∧
      (b.points.Nonempty → (a.region.contains b.region = true ↔ b.points ⊆ a.points)) ∧
      (a.region.intersects b.region = true ↔ (a.points ∩ b.points).Nonempty) := by
  obtain ⟨-, rowsA, hrowsA, hcovA⟩ := a.exists_represents ha
  obtain ⟨-, rowsB, hrowsB, hcovB⟩ := b.exists_represents hb
  have hpoints : a.region.points = a.points := Set.ext fun p => hrowsA.mem_points.trans (hcovA _ _)
  refine ⟨hpoints ▸ hrowsA.agrees, fun ⟨p, hp⟩ => ?_, ?_⟩
  · have hne : rowsB ≠ [] := by
      rintro rfl
      exact false_ne_true ((hcovB p.1 p.2).mpr hp)
    rw [hrowsA.contains_iff hrowsB hne]
    simp only [hcovA, hcovB]
    exact ⟨fun hall p hp => hall p.1 p.2 hp, fun hsub x y hp => hsub hp⟩
  · rw [hrowsA.intersects_iff hrowsB]
    simp only [hcovA, hcovB]
    exact ⟨fun ⟨x, y, hboth⟩ => ⟨(x, y), hboth⟩, fun ⟨p, hboth⟩ => ⟨p.1, p.2, hboth⟩⟩

def movedFrame : History :=
  .translate (.subtract (.rect ⟨0, 0, 30, 30⟩) (.rect ⟨10, 10, 10, 10⟩)) 5 7

def crossBar : History := .rect ⟨0, 20, 60, 3⟩

theorem region_correct_movedFrame : movedFrame.region.Agrees movedFrame.points ∧
    (crossBar.points.Nonempty →
      (movedFrame.region.contains crossBar.region = true ↔ crossBar.points ⊆ movedFrame.points)) ∧
    (movedFrame.region.intersects crossBar.region = true ↔
      (movedFrame.points ∩ crossBar.points).Nonempty) :=
  region_correct movedFrame crossBar ⟨⟨⟨rfl, by decide⟩, rfl, by decide⟩, by decide, by decide⟩
    ⟨rfl, by decide⟩

end History

end WebKit.Graphics
