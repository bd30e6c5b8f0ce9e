import WebKit.Graphics.Region

/-!
Regions on 32-bit integers. Sums and differences of coordinates wrap around, so that two coordinates
can compare the wrong way and a rectangle can have a negative width. Where all the differences of the
coordinates of a history fit in an integer, nothing wraps and the region is the exact one.
-/

namespace WebKit.Graphics

open List Shape StepFunctions

namespace Wrapping

def wrap (x : ℤ) : ℤ := x.bmod (2 ^ 32)

def maxX (rect : IntRect) : ℤ := wrap (rect.x + rect.width)

def maxY (rect : IntRect) : ℤ := wrap (rect.y + rect.height)

section Rects

variable (rect other : IntRect)

def contains : Bool :=
  rect.x ≤ other.x && maxX rect ≥ maxX other && rect.y ≤ other.y && maxY rect ≥ maxY other

def intersects : Bool :=
  !rect.isEmpty && !other.isEmpty && rect.x < maxX other && other.x < maxX rect &&
    rect.y < maxY other && other.y < maxY rect

def uniteRects : IntRect :=
  if other.isEmpty then rect
  else if rect.isEmpty then other
  else
    let l := min rect.x other.x
    let t := min rect.y other.y
    let r := max (maxX rect) (maxX other)
    let b := max (maxY rect) (maxY other)
    ⟨l, t, wrap (r - l), wrap (b - t)⟩

def move (width height : ℤ) : IntRect :=
  { rect with x := wrap (rect.x + width), y := wrap (rect.y + height) }

end Rects

section Shapes

variable (op : Operation)

def segmentsLoop (s1 s2 : List ℤ) (oldFlag : ℕ) (segments : List ℤ) : List ℤ :=
  match s1, s2 with
  | x1 :: rest1, x2 :: rest2 =>
    let test := wrap (x1 - x2)
    let flag := if test ≤ 0 then oldFlag ^^^ 1 else oldFlag
    let flag := if test ≥ 0 then flag ^^^ 2 else flag
    let x := if test ≥ 0 then x2 else x1
    segmentsLoop (if test ≤ 0 then rest1 else x1 :: rest1) (if test ≥ 0 then rest2 else x2 :: rest2)
      flag (if flag = op.opCode ∨ oldFlag = op.opCode then segments ++ [x] else segments)
  | s1, s2 =>
    if op.shouldAddRemainingSegmentsFromSpan1 && !s1.isEmpty then segments ++ s1
    else if op.shouldAddRemainingSegmentsFromSpan2 && !s2.isEmpty then segments ++ s2
    else segments
termination_by s1.length + s2.length
decreasing_by
  split_ifs <;> simp only [length_cons] <;> omega

def spansLoop (spans1 spans2 : List Row) (segments1 segments2 : List ℤ) (result : Shape) : Shape :=
  match spans1, spans2 with
  | (y1, next1) :: rest1, (y2, next2) :: rest2 =>
    let test := wrap (y1 - y2)
    let y := if test ≥ 0 then y2 else y1
    let segments1 := if test ≤ 0 then next1 else segments1
    let segments2 := if test ≥ 0 then next2 else segments2
    let segments := segmentsLoop op segments1 segments2 0 []
    spansLoop (if test ≤ 0 then rest1 else (y1, next1) :: rest1)
      (if test ≥ 0 then rest2 else (y2, next2) :: rest2) segments1 segments2
      (if !segments.isEmpty || !result.isEmpty then result.appendSpanOf y segments else result)
  | spans1, spans2 =>
    if op.shouldAddRemainingSpansFromShape1 && !spans1.isEmpty then result.appendSpans spans1
    else if op.shouldAddRemainingSpansFromShape2 && !spans2.isEmpty then result.appendSpans spans2
    else result
termination_by spans1.length + spans2.length
decreasing_by
  split_ifs <;> simp only [length_cons] <;> omega

def shapeOperation (shape1 shape2 : Shape) : Shape :=
  match op.trySimpleOperation shape1 shape2 with
  | some result => result
  | none => spansLoop op shape1.rows shape2.rows [] [] Shape.empty

variable (shape : Shape)

def bounds : IntRect :=
  match shape.spans.head?, shape.spans.getLast? with
  | some span, some lastSpan =>
    let (minX, maxX) := boundsLoop shape.segments shape.spans intMax intMin
    ⟨minX, span.y, wrap (maxX - minX), wrap (lastSpan.y - span.y)⟩
  | _, _ => IntRect.empty

def translateShape (width height : ℤ) : Shape where
  segments := shape.segments.map fun x => wrap (x + width)
  spans := shape.spans.map fun span => { span with y := wrap (span.y + height) }

end Shapes

section Regions

def ofRect (rect : IntRect) : Region :=
  ⟨rect, (((Shape.empty.appendSpan rect.y).appendSegment rect.x).appendSegment (maxX rect)).appendSpan
    (maxY rect)⟩

variable (region other : Region)

def regionContains : Bool :=
  if !contains region.bounds other.bounds then false
  else compareShapes compareContainsOperation region.shape other.shape

def intersect : Region :=
  if region.bounds.isEmpty then region
  else if !intersects region.bounds other.bounds then Region.empty
  else
    let intersectedShape := shapeOperation intersectOperation region.shape other.shape
    ⟨bounds intersectedShape, intersectedShape⟩

def unite : Region :=
  if other.isEmpty then region
  else if region.isRect && contains region.bounds other.bounds then region
  else if other.isRect && contains other.bounds region.bounds then other
  else if !region.isRect && regionContains region other then region
  else ⟨uniteRects region.bounds other.bounds, shapeOperation unionOperation region.shape other.shape⟩

def subtract : Region :=
  if region.bounds.isEmpty then region
  else if other.isEmpty then region
  else if !intersects region.bounds other.bounds then region
  else
    let subtractedShape := shapeOperation subtractOperation region.shape other.shape
    ⟨bounds subtractedShape, subtractedShape⟩

def translate (width height : ℤ) : Region :=
  ⟨move region.bounds width height, translateShape region.shape width height⟩

end Regions

end Wrapping

namespace History

/-- The region that the operations of a history build. -/
def wrappedRegion : History → Region
  | empty => Region.empty
  | rect r => Wrapping.ofRect r
  | unite a b => Wrapping.unite a.wrappedRegion b.wrappedRegion
  | intersect a b => Wrapping.intersect a.wrappedRegion b.wrappedRegion
  | subtract a b => Wrapping.subtract a.wrappedRegion b.wrappedRegion
  | translate a width height => Wrapping.translate a.wrappedRegion width height

/-- The differences of the coordinates fit in an integer. -/
def Narrow (history : History) : Prop :=
  (∀ x ∈ history.xs, ∀ x' ∈ history.xs, x - x' ≤ intMax) ∧
    ∀ y ∈ history.ys, ∀ y' ∈ history.ys, y - y' ≤ intMax

end History

namespace Wrapping

def IsInt (x : ℤ) : Prop := intMin ≤ x ∧ x ≤ intMax

theorem int_bounds : intMin = -2 ^ 31 ∧ intMax = 2 ^ 31 - 1 := ⟨rfl, rfl⟩

theorem wrap_eq {x : ℤ} (h : IsInt x) : wrap x = x := by
  obtain ⟨hmin, hmax⟩ := int_bounds
  obtain ⟨hlow, hhigh⟩ := h
  exact Int.bmod_eq_of_le (by omega) (by omega)

theorem wrap_isInt (x : ℤ) : IsInt (wrap x) := by
  obtain ⟨hmin, hmax⟩ := int_bounds
  have hlow := Int.le_bmod (x := x) (m := 2 ^ 32) (by decide)
  have hhigh := Int.bmod_lt (x := x) (m := 2 ^ 32) (by decide)
  constructor <;> simp only [wrap] at * <;> omega

/-- Coordinates in the range of an integer, whose differences are in it as well. -/
structure Near (X : Set ℤ) : Prop where
  isInt : ∀ x ∈ X, IsInt x
  sub_le : ∀ x ∈ X, ∀ x' ∈ X, x - x' ≤ intMax

/-- Between two coordinates. -/
def Spanned (X : Set ℤ) (x : ℤ) : Prop := (∃ low ∈ X, low ≤ x) ∧ ∃ high ∈ X, x ≤ high

section Near

variable {X Y : Set ℤ} {x x' : ℤ} (hX : Near X)
include hX

theorem Spanned.isInt (hx : Spanned X x) : IsInt x := by
  obtain ⟨⟨low, hlow, hle⟩, high, hhigh, hge⟩ := hx
  exact ⟨(hX.isInt low hlow).1.trans hle, hge.trans (hX.isInt high hhigh).2⟩

theorem Spanned.sub_isInt (hx : Spanned X x) (hx' : Spanned X x') : IsInt (x - x') := by
  obtain ⟨hmin, hmax⟩ := int_bounds
  obtain ⟨⟨low, hlow, hle⟩, high, hhigh, hge⟩ := hx
  obtain ⟨⟨low', hlow', hle'⟩, high', hhigh', hge'⟩ := hx'
  have hwide := hX.sub_le high hhigh low' hlow'
  have hwide' := hX.sub_le high' hhigh' low hlow
  constructor <;> omega

end Near

theorem spanned_of_mem {X : Set ℤ} {x : ℤ} (hx : x ∈ X) : Spanned X x :=
  ⟨⟨x, hx, le_rfl⟩, x, hx, le_rfl⟩

section Loops

variable {X Y : Set ℤ} {op : Operation}

theorem segmentsLoop_eq (hX : Near X) {s1 s2 : List ℤ} (h1 : ∀ x ∈ s1, x ∈ X) (h2 : ∀ x ∈ s2, x ∈ X)
    (flag : ℕ) (segments : List ℤ) :
    segmentsLoop op s1 s2 flag segments = Shape.segmentsLoop op s1 s2 flag segments := by
  induction hlen : s1.length + s2.length using Nat.strong_induction_on
    generalizing s1 s2 flag segments with
  | h n ih =>
    cases s1 with
    | nil => simp [segmentsLoop, Shape.segmentsLoop]
    | cons x1 rest1 =>
      cases s2 with
      | nil => simp [segmentsLoop, Shape.segmentsLoop]
      | cons x2 rest2 =>
        have hwrap : wrap (x1 - x2) = x1 - x2 := wrap_eq <| (spanned_of_mem (h1 x1 mem_cons_self)).sub_isInt
          hX (spanned_of_mem (h2 x2 mem_cons_self))
        rw [segmentsLoop, Shape.segmentsLoop, hwrap]
        refine ih _ ?_ ?_ ?_ _ _ rfl
        · rw [← hlen]
          split_ifs <;> simp only [length_cons] <;> omega
        · split_ifs
          · exact fun x hx => h1 x (mem_cons_of_mem _ hx)
          · exact h1
        · split_ifs
          · exact fun x hx => h2 x (mem_cons_of_mem _ hx)
          · exact h2

theorem spansLoop_eq (hX : Near X) (hY : Near Y) {spans1 spans2 : List Row} {segments1 segments2 : List ℤ}
    (h1 : ∀ row ∈ spans1, RowWithin X Y row) (h2 : ∀ row ∈ spans2, RowWithin X Y row)
    (hs1 : ∀ x ∈ segments1, x ∈ X) (hs2 : ∀ x ∈ segments2, x ∈ X) (result : Shape) :
    spansLoop op spans1 spans2 segments1 segments2 result =
      Shape.spansLoop op spans1 spans2 segments1 segments2 result := by
  induction hlen : spans1.length + spans2.length using Nat.strong_induction_on
    generalizing spans1 spans2 segments1 segments2 result with
  | h n ih =>
    cases spans1 with
    | nil => simp [spansLoop, Shape.spansLoop]
    | cons row1 rest1 =>
      cases spans2 with
      | nil => simp [spansLoop, Shape.spansLoop]
      | cons row2 rest2 =>
        obtain ⟨hrow1, hrest1⟩ := forall_mem_cons.mp h1
        obtain ⟨hrow2, hrest2⟩ := forall_mem_cons.mp h2
        obtain ⟨y1, next1⟩ := row1
        obtain ⟨y2, next2⟩ := row2
        have hwrap : wrap (y1 - y2) = y1 - y2 := wrap_eq <|
          (spanned_of_mem hrow1.y_mem).sub_isInt hY (spanned_of_mem hrow2.y_mem)
        have hnext1 : ∀ x ∈ if y1 - y2 ≤ 0 then next1 else segments1, x ∈ X := by
          split_ifs
          · exact hrow1.x_mem
          · exact hs1
        have hnext2 : ∀ x ∈ if y1 - y2 ≥ 0 then next2 else segments2, x ∈ X := by
          split_ifs
          · exact hrow2.x_mem
          · exact hs2
        rw [spansLoop, Shape.spansLoop, hwrap]
        simp only [segmentsLoop_eq hX hnext1 hnext2, combineSegments]
        refine ih _ ?_ ?_ ?_ hnext1 hnext2 _ rfl
        · rw [← hlen]
          split_ifs <;> simp only [length_cons] <;> omega
        · split_ifs
          · exact hrest1
          · exact h1
        · split_ifs
          · exact hrest2
          · exact h2

theorem shapeOperation_eq (hX : Near X) (hY : Near Y) {rows1 rows2 : List Row}
    (h1 : Canonical X Y rows1) (h2 : Canonical X Y rows2) :
    shapeOperation op (ofRows rows1) (ofRows rows2) =
      Shape.shapeOperation op (ofRows rows1) (ofRows rows2) := by
  unfold shapeOperation Shape.shapeOperation
  cases op.trySimpleOperation (ofRows rows1) (ofRows rows2) with
  | some result => rfl
  | none =>
    simp only [rows_ofRows]
    exact spansLoop_eq hX hY h1.within h2.within (forall_mem_nil _) (forall_mem_nil _) _

end Loops

section Bounds

variable {X Y : Set ℤ} {rows otherRows : List Row} {rect other : IntRect} {region : Region}

/-- The sides of the rectangle are between the coordinates. -/
structure InBox (X Y : Set ℤ) (rect : IntRect) : Prop where
  x : Spanned X rect.x
  maxX : Spanned X rect.maxX
  y : Spanned Y rect.y
  maxY : Spanned Y rect.maxY

theorem inBox_of_bounds (hcanon : Canonical X Y rows) (h : Bounds rect rows) (hne : rows ≠ []) :
    InBox X Y rect := by
  have hxs : ∀ {x y : ℤ}, covers rows x y → (∃ low ∈ X, low ≤ x) ∧ ∃ high ∈ X, x < high := by
    intro x y hcov
    obtain ⟨start, hstart, stop, hstop, hle, hlt⟩ := (hcanon.edges_value y).exists_mem_of_inside hcov
    rcases value_mem [] rows y with hnil | ⟨row, hrow, hval⟩
    · rw [hnil] at hstart
      cases hstart
    · rw [← hval] at hstart hstop
      exact ⟨⟨start, (hcanon.within row hrow).x_mem start hstart, hle⟩, stop,
        (hcanon.within row hrow).x_mem stop hstop, hlt⟩
  have hys : ∀ {x y : ℤ}, covers rows x y → (∃ low ∈ Y, low ≤ y) ∧ ∃ high ∈ Y, y < high := by
    intro x y hcov
    cases rows with
    | nil => exact absurd rfl hne
    | cons row rest =>
      obtain ⟨last, hlast⟩ := Option.isSome_iff_exists.mp (getLast?_isSome.mpr (cons_ne_nil row rest))
      obtain ⟨hle, hlt⟩ := hcanon.between hlast hcov
      exact ⟨⟨row.1, (hcanon.within row mem_cons_self).y_mem, hle⟩, last.1,
        (hcanon.within last (mem_of_getLast? hlast)).y_mem, hlt⟩
  obtain ⟨yl, hleft⟩ := h.left hne
  obtain ⟨yr, hright⟩ := h.right hne
  obtain ⟨xt, htop⟩ := h.top hne
  obtain ⟨xb, hbottom⟩ := h.bottom hne
  obtain ⟨hlowX, hhighX⟩ := hxs hleft
  obtain ⟨⟨lowX, hlowXmem, hlowXle⟩, highX, hhighXmem, hhighXlt⟩ := hxs hright
  obtain ⟨hlowY, hhighY⟩ := hys htop
  obtain ⟨⟨lowY, hlowYmem, hlowYle⟩, highY, hhighYmem, hhighYlt⟩ := hys hbottom
  exact ⟨⟨hlowX, hhighX.imp fun high hhigh => ⟨hhigh.1, hhigh.2.le⟩⟩,
    ⟨⟨lowX, hlowXmem, by omega⟩, highX, hhighXmem, by omega⟩,
    ⟨hlowY, hhighY.imp fun high hhigh => ⟨hhigh.1, hhigh.2.le⟩⟩,
    ⟨⟨lowY, hlowYmem, by omega⟩, highY, hhighYmem, by omega⟩⟩

theorem bounds_eq_wrap (shape : Shape) : bounds shape =
    ⟨shape.bounds.x, shape.bounds.y, wrap shape.bounds.width, wrap shape.bounds.height⟩ := by
  unfold bounds Shape.bounds
  cases shape.spans.head? <;> cases shape.spans.getLast? <;> rfl

theorem InBox.maxX_eq (hX : Near X) (h : InBox X Y rect) : Wrapping.maxX rect = rect.maxX :=
  wrap_eq (h.maxX.isInt hX)

theorem InBox.maxY_eq (hY : Near Y) (h : InBox X Y rect) : Wrapping.maxY rect = rect.maxY :=
  wrap_eq (h.maxY.isInt hY)

section

variable (hX : Near X) (hY : Near Y)
include hX hY

theorem contains_eq (h : InBox X Y rect) (hoth : InBox X Y other) :
    contains rect other = rect.contains other := by
  rw [contains, h.maxX_eq hX, h.maxY_eq hY, hoth.maxX_eq hX, hoth.maxY_eq hY,
    IntRect.contains]

theorem intersects_eq (h : InBox X Y rect) (hoth : InBox X Y other) :
    intersects rect other = rect.intersects other := by
  rw [intersects, h.maxX_eq hX, h.maxY_eq hY, hoth.maxX_eq hX, hoth.maxY_eq hY,
    IntRect.intersects]

theorem uniteRects_eq (h : InBox X Y rect) (hoth : InBox X Y other) :
    uniteRects rect other = rect.unite other := by
  have hwidth : IsInt (max rect.maxX other.maxX - min rect.x other.x) := by
    rcases max_choice rect.maxX other.maxX with hmax | hmax <;>
      rcases min_choice rect.x other.x with hmin | hmin <;> rw [hmax, hmin]
    exacts [h.maxX.sub_isInt hX h.x, h.maxX.sub_isInt hX hoth.x, hoth.maxX.sub_isInt hX h.x,
      hoth.maxX.sub_isInt hX hoth.x]
  have hheight : IsInt (max rect.maxY other.maxY - min rect.y other.y) := by
    rcases max_choice rect.maxY other.maxY with hmax | hmax <;>
      rcases min_choice rect.y other.y with hmin | hmin <;> rw [hmax, hmin]
    exacts [h.maxY.sub_isInt hY h.y, h.maxY.sub_isInt hY hoth.y, hoth.maxY.sub_isInt hY h.y,
      hoth.maxY.sub_isInt hY hoth.y]
  rw [uniteRects, IntRect.unite, h.maxX_eq hX, h.maxY_eq hY, hoth.maxX_eq hX,
    hoth.maxY_eq hY]
  simp only [wrap_eq hwidth, wrap_eq hheight]

theorem bounds_eq (h : Canonical X Y rows) : bounds (ofRows rows) = (ofRows rows).bounds := by
  rcases eq_or_ne rows [] with rfl | hne
  · rfl
  · have hbox := inBox_of_bounds h (bounds_spec h hX.isInt) hne
    have hwidth := hbox.maxX.sub_isInt hX hbox.x
    have hheight := hbox.maxY.sub_isInt hY hbox.y
    simp only [IntRect.maxX, IntRect.maxY, add_sub_cancel_left] at hwidth hheight
    rw [bounds_eq_wrap, wrap_eq hwidth, wrap_eq hheight]

end

end Bounds

section Regions

open Region

variable {X Y X' Y' : Set ℤ} {region other : Region} {rows otherRows : List Row}

/-- The region has the rows, and bounds of no size if there are none. -/
structure Holds (X Y : Set ℤ) (region : Region) (rows : List Row) : Prop extends
    Represents X Y region rows where
  bounds_nil : rows = [] → region.bounds.width = 0 ∧ region.bounds.height = 0 ∧
    IsInt region.bounds.x ∧ IsInt region.bounds.y

theorem holds_empty (X Y : Set ℤ) : Holds X Y Region.empty [] :=
  ⟨represents_empty X Y, fun _ => ⟨rfl, rfl, ⟨by decide, by decide⟩, by decide, by decide⟩⟩

theorem Holds.inBox (h : Holds X Y region rows) (hne : rows ≠ []) : InBox X Y region.bounds :=
  inBox_of_bounds h.canonical h.bounds hne

section

variable (hX : Near X) (hY : Near Y) (h : Holds X Y region rows) (hoth : Holds X Y other otherRows)
include hX h hoth

theorem Holds.unite_of_nil (hnil : rows = []) (hne : otherRows ≠ []) : unite region other = other := by
  subst hnil
  obtain ⟨hwidth, hheight, hx, hy⟩ := h.bounds_nil rfl
  have hbox := hoth.inBox hne
  have hothEmp : other.bounds.isEmpty = false := Bool.eq_false_iff.mpr fun hemp => hne (hoth.isEmpty_iff.mp hemp)
  have hsize : ¬(other.bounds.width ≤ 0 ∨ other.bounds.height ≤ 0) := fun hsize =>
    Bool.eq_false_iff.mp hothEmp (IntRect.isEmpty_iff.mpr hsize)
  have hcont : contains region.bounds other.bounds = false := by
    have hmax : maxX region.bounds = region.bounds.x := by
      rw [maxX, hwidth, add_zero, wrap_eq hx]
    rw [Bool.eq_false_iff]
    intro hall
    simp only [contains, Bool.and_eq_true, decide_eq_true_eq] at hall
    rw [hmax, hbox.maxX_eq hX, IntRect.maxX] at hall
    omega
  have hshape : shapeOperation unionOperation region.shape other.shape = other.shape := by
    rw [h.shape_eq]
    rfl
  have hbounds : uniteRects region.bounds other.bounds = other.bounds := by
    unfold uniteRects
    rw [if_neg (Bool.eq_false_iff.mp hothEmp), if_pos (show region.bounds.isEmpty from h.isEmpty_iff.mpr rfl)]
  have hrect : region.isRect := by
    rw [Region.isRect, h.shape_eq]
    rfl
  unfold unite
  rw [Region.isEmpty, hothEmp, hcont, hrect, hbounds, hshape]
  simp

include hY

theorem Holds.unite_eq (hne : rows ≠ []) (hothNe : otherRows ≠ []) :
    unite region other = region.unite other := by
  have hbox := h.inBox hne
  have hothBox := hoth.inBox hothNe
  unfold unite Region.unite regionContains Region.contains
  rw [contains_eq hX hY hbox hothBox, contains_eq hX hY hothBox hbox, uniteRects_eq hX hY hbox hothBox,
    h.shape_eq, hoth.shape_eq, shapeOperation_eq hX hY h.canonical hoth.canonical]
  rfl

theorem Holds.unite : ∃ result, Holds X Y (unite region other) result ∧
    ∀ x y, covers result x y = (covers rows x y || covers otherRows x y) := by
  rcases eq_or_ne otherRows [] with rfl | hothNe
  · refine ⟨rows, ?_, fun x y => (Bool.or_false _).symm⟩
    rwa [Wrapping.unite, if_pos (hoth.isEmpty_iff.mpr rfl)]
  rcases eq_or_ne rows [] with rfl | hne
  · rw [h.unite_of_nil hX hoth rfl hothNe]
    exact ⟨otherRows, hoth, fun x y => rfl⟩
  · rw [h.unite_eq hX hY hoth hne hothNe]
    obtain ⟨result, hres, hcov⟩ := h.toRepresents.unite hoth.toRepresents
    refine ⟨result, ⟨hres, ?_⟩, hcov⟩
    rintro rfl
    obtain ⟨-, x, y, hxy⟩ := h.canonical.exists_covers hne
    have hnone := hcov x y
    rw [hxy, Bool.true_or] at hnone
    exact absurd hnone Bool.false_ne_true

theorem Holds.intersect : ∃ result, Holds X Y (intersect region other) result ∧
    ∀ x y, covers result x y = (covers rows x y && covers otherRows x y) := by
  unfold Wrapping.intersect
  split_ifs with hempty hbds
  · obtain rfl := h.isEmpty_iff.mp hempty
    exact ⟨[], h, fun x y => rfl⟩
  · refine ⟨[], holds_empty X Y, fun x y => ?_⟩
    refine (Bool.eq_false_iff.mpr fun hboth => ?_).symm
    rw [Bool.and_eq_true] at hboth
    have hmeet := h.toRepresents.intersects_of_covers hoth.toRepresents hboth.1 hboth.2
    rw [intersects_eq hX hY (h.inBox ?_) (hoth.inBox ?_), hmeet] at hbds
    · exact Bool.false_ne_true hbds
    · rintro rfl
      exact Bool.false_ne_true hboth.1
    · rintro rfl
      exact Bool.false_ne_true hboth.2
  · obtain ⟨result, hres, hcanon, hcov⟩ := intersectShapes_spec h.canonical hoth.canonical
    refine ⟨result, ?_, hcov⟩
    simp only [h.shape_eq, hoth.shape_eq, shapeOperation_eq hX hY h.canonical hoth.canonical]
    rw [← intersectShapes, hres, bounds_eq hX hY hcanon]
    refine ⟨⟨hcanon, rfl, bounds_spec hcanon hX.isInt⟩, ?_⟩
    rintro rfl
    exact (holds_empty X Y).bounds_nil rfl

theorem Holds.subtract : ∃ result, Holds X Y (subtract region other) result ∧
    ∀ x y, covers result x y = (covers rows x y && !covers otherRows x y) := by
  unfold Wrapping.subtract
  split_ifs with hempty hothEmp hbds
  · obtain rfl := h.isEmpty_iff.mp hempty
    exact ⟨[], h, fun x y => rfl⟩
  · obtain rfl := hoth.isEmpty_iff.mp hothEmp
    exact ⟨rows, h, fun x y => (Bool.and_true _).symm⟩
  · refine ⟨rows, h, fun x y => ?_⟩
    cases hcov : covers rows x y with
    | false => rfl
    | true =>
      cases hcov' : covers otherRows x y with
      | false => rfl
      | true =>
        have hmeet := h.toRepresents.intersects_of_covers hoth.toRepresents hcov hcov'
        rw [intersects_eq hX hY (h.inBox ?_) (hoth.inBox ?_), hmeet] at hbds
        · exact absurd hbds Bool.false_ne_true
        · exact fun hnil => hempty (h.isEmpty_iff.mpr hnil)
        · exact fun hnil => hothEmp (hoth.isEmpty_iff.mpr hnil)
  · obtain ⟨result, hres, hcanon, hcov⟩ := subtractShapes_spec h.canonical hoth.canonical
    refine ⟨result, ?_, hcov⟩
    simp only [h.shape_eq, hoth.shape_eq, shapeOperation_eq hX hY h.canonical hoth.canonical]
    rw [← subtractShapes, hres, bounds_eq hX hY hcanon]
    refine ⟨⟨hcanon, rfl, bounds_spec hcanon hX.isInt⟩, ?_⟩
    rintro rfl
    exact (holds_empty X Y).bounds_nil rfl

end

theorem translateShape_eq {width height : ℤ} (hcanon : Canonical X Y rows)
    (hX : ∀ x ∈ X, IsInt (x + width)) (hY : ∀ y ∈ Y, IsInt (y + height)) :
    translateShape (ofRows rows) width height = (ofRows rows).translate width height := by
  unfold translateShape Shape.translate
  congr 1
  · refine map_congr_left fun x hx => wrap_eq (hX x ?_)
    obtain ⟨row, hrow, hmem⟩ := mem_flatMap.mp hx
    exact (hcanon.within row hrow).x_mem x hmem
  · refine map_congr_left fun span hspan => ?_
    have hy : span.y ∈ rows.map Prod.fst := by
      rw [← map_y_spansOf 0 rows]
      exact mem_map_of_mem hspan
    obtain ⟨row, hrow, hfst⟩ := mem_map.mp hy
    rw [wrap_eq (hY span.y (hfst ▸ (hcanon.within row hrow).y_mem))]

theorem Spanned.add {x width : ℤ} (h : Spanned X x) (hX : ∀ x ∈ X, IsInt (x + width)) :
    IsInt (x + width) := by
  obtain ⟨⟨low, hlow, hle⟩, high, hhigh, hge⟩ := h
  exact ⟨(hX low hlow).1.trans (by omega), (by omega : x + width ≤ high + width).trans (hX high hhigh).2⟩

theorem Holds.translate {width height : ℤ} (h : Holds X Y region rows)
    (hX : ∀ x ∈ X, IsInt (x + width)) (hY : ∀ y ∈ Y, IsInt (y + height))
    (hX' : ∀ x ∈ X, x + width ∈ X') (hY' : ∀ y ∈ Y, y + height ∈ Y') :
    Holds X' Y' (translate region width height) (rows.map (shiftRow width height)) := by
  have hshape := translateShape_eq h.canonical hX hY
  rcases eq_or_ne rows [] with rfl | hne
  · obtain ⟨hwidth, hheight, -, -⟩ := h.bounds_nil rfl
    refine ⟨⟨(represents_empty X' Y').canonical, ?_, nofun, by simp, by simp, by simp, by simp,
      fun _ => ?_⟩, fun _ => ⟨hwidth, hheight, wrap_isInt _, wrap_isInt _⟩⟩
    · rw [Wrapping.translate, h.shape_eq, hshape]
      rfl
    · exact IntRect.isEmpty_iff.mpr (.inl hwidth.le)
  · have hbox := h.inBox hne
    have heq : Wrapping.translate region width height = region.translate width height := by
      rw [Wrapping.translate, h.shape_eq, hshape, Region.translate, h.shape_eq, move, IntRect.move,
        wrap_eq (hbox.x.add hX), wrap_eq (hbox.y.add hY)]
    rw [heq]
    exact ⟨h.toRepresents.translate width height hX' hY', fun hnil => absurd (map_eq_nil_iff.mp hnil) hne⟩

end Regions

end Wrapping

namespace History

open Wrapping

section

variable {a b : History}

theorem holds_of_append {rows : List Row}
    (h : Holds {x | x ∈ a.xs} {y | y ∈ a.ys} a.wrappedRegion rows) :
    Holds {x | x ∈ a.xs ++ b.xs} {y | y ∈ a.ys ++ b.ys} a.wrappedRegion rows :=
  ⟨h.toRepresents.mono (fun _ hx => mem_append_left _ hx) fun _ hy => mem_append_left _ hy, h.bounds_nil⟩

theorem holds_append_of {rows : List Row}
    (h : Holds {x | x ∈ b.xs} {y | y ∈ b.ys} b.wrappedRegion rows) :
    Holds {x | x ∈ a.xs ++ b.xs} {y | y ∈ a.ys ++ b.ys} b.wrappedRegion rows :=
  ⟨h.toRepresents.mono (fun _ hx => mem_append_right _ hx) fun _ hy => mem_append_right _ hy, h.bounds_nil⟩

end

/-- The coordinates are near to one another, and the region has the points that it should have. -/
def BuildsExactly (history : History) : Prop :=
  Near {x | x ∈ history.xs} ∧ Near {y | y ∈ history.ys} ∧
    ∃ rows, Holds {x | x ∈ history.xs} {y | y ∈ history.ys} history.wrappedRegion rows ∧
      ∀ x y, covers rows x y ↔ (x, y) ∈ history.points

/-- One operation on two regions that are built exactly. -/
theorem buildsExactly_of_append {a b whole : History} (combines : Bool → Bool → Bool)
    (hxs : whole.xs = a.xs ++ b.xs) (hys : whole.ys = a.ys ++ b.ys) (hnarrow : whole.Narrow)
    (hcombine : ∀ {X Y : Set ℤ} {rowsA rowsB : List Row}, Near X → Near Y →
      Holds X Y a.wrappedRegion rowsA → Holds X Y b.wrappedRegion rowsB →
      ∃ rows, Holds X Y whole.wrappedRegion rows ∧
        ∀ x y, covers rows x y = combines (covers rowsA x y) (covers rowsB x y))
    (hpoints : ∀ {x y : ℤ} {coversA coversB : Bool}, (coversA ↔ (x, y) ∈ a.points) →
      (coversB ↔ (x, y) ∈ b.points) → (combines coversA coversB ↔ (x, y) ∈ whole.points))
    (ha : a.Narrow → a.BuildsExactly) (hb : b.Narrow → b.BuildsExactly) : whole.BuildsExactly := by
  unfold Narrow at hnarrow
  unfold BuildsExactly
  rw [hxs, hys] at *
  obtain ⟨hnearAX, hnearAY, rowsA, hrowsA, hcovA⟩ := ha
    ⟨fun x hx x' hx' => hnarrow.1 x (mem_append_left _ hx) x' (mem_append_left _ hx'),
      fun y hy y' hy' => hnarrow.2 y (mem_append_left _ hy) y' (mem_append_left _ hy')⟩
  obtain ⟨hnearBX, hnearBY, rowsB, hrowsB, hcovB⟩ := hb
    ⟨fun x hx x' hx' => hnarrow.1 x (mem_append_right _ hx) x' (mem_append_right _ hx'),
      fun y hy y' hy' => hnarrow.2 y (mem_append_right _ hy) y' (mem_append_right _ hy')⟩
  have hX : Near {x | x ∈ a.xs ++ b.xs} :=
    ⟨fun x hx => (mem_append.mp hx).elim (hnearAX.isInt x) (hnearBX.isInt x), hnarrow.1⟩
  have hY : Near {y | y ∈ a.ys ++ b.ys} :=
    ⟨fun y hy => (mem_append.mp hy).elim (hnearAY.isInt y) (hnearBY.isInt y), hnarrow.2⟩
  obtain ⟨rows, hrows, hcov⟩ := hcombine hX hY (holds_of_append hrowsA) (holds_append_of hrowsB)
  refine ⟨hX, hY, rows, hrows, fun x y => ?_⟩
  rw [hcov]
  exact hpoints (hcovA x y) (hcovB x y)

theorem buildsExactly (history : History) (h : history.Fits) (hnarrow : history.Narrow) :
    history.BuildsExactly := by
  induction history with
  | empty =>
    exact ⟨⟨nofun, nofun⟩, ⟨nofun, nofun⟩, [], holds_empty _ _, fun x y => iff_of_false nofun nofun⟩
  | rect r =>
    obtain ⟨hempty, hint⟩ := h
    have hmaxX : Wrapping.maxX r = r.maxX := wrap_eq (hint r.maxX (by simp))
    have hmaxY : Wrapping.maxY r = r.maxY := wrap_eq (hint r.maxY (by simp))
    have heq : (rect r).wrappedRegion = (rect r).region := by
      rw [wrappedRegion, Wrapping.ofRect, hmaxX, hmaxY]
      rfl
    obtain ⟨hrep, hcov⟩ := Region.represents_ofRect hempty
    refine ⟨⟨fun x hx => hint x (mem_append_left [r.y, r.maxY] hx), hnarrow.1⟩,
      ⟨fun y hy => hint y (mem_append_right [r.x, r.maxX] hy), hnarrow.2⟩, _, ?_,
      fun x y => by rw [hcov]; rfl⟩
    rw [heq]
    exact ⟨hrep, fun hnil => absurd hnil (cons_ne_nil _ _)⟩
  | unite a b iha ihb =>
    refine buildsExactly_of_append (· || ·) rfl rfl hnarrow
      (fun hX hY hA hB => hA.unite hX hY hB) ?_ (iha h.1) (ihb h.2)
    intro x y coversA coversB hA hB
    rw [Bool.or_eq_true, hA, hB]
    rfl
  | intersect a b iha ihb =>
    refine buildsExactly_of_append (· && ·) rfl rfl hnarrow
      (fun hX hY hA hB => hA.intersect hX hY hB) ?_ (iha h.1) (ihb h.2)
    intro x y coversA coversB hA hB
    rw [Bool.and_eq_true, hA, hB]
    rfl
  | subtract a b iha ihb =>
    refine buildsExactly_of_append (fun left right => left && !right) rfl rfl hnarrow
      (fun hX hY hA hB => hA.subtract hX hY hB) ?_ (iha h.1) (ihb h.2)
    intro x y coversA coversB hA hB
    rw [Bool.and_eq_true, Bool.not_eq_true', ← Bool.not_eq_true, hA, hB]
    rfl
  | translate a width height ih =>
    obtain ⟨hfits, hx, hy⟩ := h
    have hnarrow' : a.Narrow :=
      ⟨fun x hmem x' hmem' => by
          have hle := hnarrow.1 _ (mem_map_of_mem hmem) _ (mem_map_of_mem hmem')
          omega,
        fun y hmem y' hmem' => by
          have hle := hnarrow.2 _ (mem_map_of_mem hmem) _ (mem_map_of_mem hmem')
          omega⟩
    obtain ⟨-, -, rows, hrows, hcov⟩ := ih hfits hnarrow'
    refine ⟨⟨fun x hmem => ?_, hnarrow.1⟩, ⟨fun y hmem => ?_, hnarrow.2⟩, _,
      hrows.translate hx hy (fun x hmem => ?_) fun y hmem => ?_, fun x y => ?_⟩
    · obtain ⟨before, hbefore, rfl⟩ := mem_map.mp hmem
      exact hx before hbefore
    · obtain ⟨before, hbefore, rfl⟩ := mem_map.mp hmem
      exact hy before hbefore
    · exact mem_map.mpr ⟨x, hmem, rfl⟩
    · exact mem_map.mpr ⟨y, hmem, rfl⟩
    · rw [Region.covers_shift, hcov]
      rfl

theorem wrappedRegion_eq_region (history : History) (h : history.Fits) (hnarrow : history.Narrow)
    (hne : history.points.Nonempty) : history.wrappedRegion = history.region := by
  obtain ⟨-, -, rows, hrows, hcov⟩ := history.buildsExactly h hnarrow
  obtain ⟨-, exactRows, hexact, hexactCov⟩ := history.exists_represents h
  have hpoints : history.wrappedRegion.points = history.points :=
    Set.ext fun p => hrows.toRepresents.mem_points.trans (hcov _ _)
  have hexactPoints : history.region.points = history.points :=
    Set.ext fun p => hexact.mem_points.trans (hexactCov _ _)
  exact hrows.toRepresents.eq_of_points_eq hexact (hpoints ▸ hne) (hpoints.trans hexactPoints.symm)

/-- Regions with the same points, of which there is one, are equal: they have the same spans, segments
and bounds, whatever operations they are built by. -/
theorem wrappedRegion_canonical (a b : History) (ha : a.Fits) (hb : b.Fits) (hna : a.Narrow)
    (hnb : b.Narrow) (hne : a.wrappedRegion.points.Nonempty)
    (heq : a.wrappedRegion.points = b.wrappedRegion.points) : a.wrappedRegion = b.wrappedRegion := by
  obtain ⟨-, -, rows, hrows, -⟩ := a.buildsExactly ha hna
  obtain ⟨-, -, otherRows, hoth, -⟩ := b.buildsExactly hb hnb
  exact hrows.toRepresents.eq_of_points_eq hoth.toRepresents hne heq

/-- A rectangle, and the union of it with a part of it that has been moved there. -/
theorem wrappedRegion_canonical_part :
    (unite (rect ⟨0, 0, 2, 2⟩) (translate (rect ⟨0, 0, 1, 1⟩) 1 1)).wrappedRegion =
      (rect ⟨0, 0, 2, 2⟩).wrappedRegion :=
  wrappedRegion_canonical _ _ ⟨⟨rfl, by decide⟩, ⟨rfl, by decide⟩, by decide, by decide⟩
    ⟨rfl, by decide⟩ ⟨by decide, by decide⟩ ⟨by decide, by decide⟩ ⟨(0, 0), show _ = _ from rfl⟩ rfl

def farMiddleNear : History :=
  unite (unite (rect ⟨-2147483647, 0, 1, 1⟩) (rect ⟨0, 0, 1, 1⟩)) (rect ⟨-5, 0, 1, 1⟩)

def farNearMiddle : History :=
  unite (unite (rect ⟨-2147483647, 0, 1, 1⟩) (rect ⟨-5, 0, 1, 1⟩)) (rect ⟨0, 0, 1, 1⟩)

/-- Three squares in a row that is wider than an integer. United in one order they have the bounds of
one square, in the other order bounds of a negative width. -/
theorem wrappedRegion_not_canonical : farMiddleNear.Fits ∧ farNearMiddle.Fits ∧
    farMiddleNear.wrappedRegion.points.Nonempty ∧
    farMiddleNear.wrappedRegion.points = farNearMiddle.wrappedRegion.points ∧
    farMiddleNear.wrappedRegion.bounds = ⟨-5, 0, 1, 1⟩ ∧
    farNearMiddle.wrappedRegion.bounds = ⟨-2147483647, 0, -2147483648, 1⟩ ∧
    farMiddleNear.wrappedRegion ≠ farNearMiddle.wrappedRegion := by
  have hfirst : farMiddleNear.wrappedRegion.bounds = ⟨-5, 0, 1, 1⟩ := by decide +kernel
  have hlast : farNearMiddle.wrappedRegion.bounds = ⟨-2147483647, 0, -2147483648, 1⟩ := by
    decide +kernel
  have hrows : farMiddleNear.wrappedRegion.shape.rows = farNearMiddle.wrappedRegion.shape.rows := by
    decide +kernel
  refine ⟨⟨⟨⟨rfl, by decide⟩, rfl, by decide⟩, rfl, by decide⟩,
    ⟨⟨⟨rfl, by decide⟩, rfl, by decide⟩, rfl, by decide⟩, ⟨(0, 0), ?_⟩, ?_, hfirst, hlast, ?_⟩
  · show covers farMiddleNear.wrappedRegion.shape.rows 0 0 = true
    decide +kernel
  · rw [Region.points, hrows, Region.points]
  · intro heq
    rw [heq, hlast] at hfirst
    exact absurd hfirst (by decide)

end History

end WebKit.Graphics
