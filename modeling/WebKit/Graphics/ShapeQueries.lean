import WebKit.Graphics.ShapeComparison

/-!
Rectangles, and what is read from a shape: whether a point is in it, its rectangles and its bounds.
The bounds are found in one pass over the segments at the two ends of each span; a span without
segments reads those of its neighbours instead.
-/

namespace WebKit.Graphics

open List StepFunctions

structure IntRect where
  x : ℤ
  y : ℤ
  width : ℤ
  height : ℤ
deriving DecidableEq

namespace IntRect

def empty : IntRect := ⟨0, 0, 0, 0⟩

variable (rect : IntRect)

def maxX : ℤ := rect.x + rect.width

def maxY : ℤ := rect.y + rect.height

def isEmpty : Bool := rect.width ≤ 0 || rect.height ≤ 0

def containsPoint (px py : ℤ) : Bool :=
  px ≥ rect.x && px < rect.maxX && py ≥ rect.y && py < rect.maxY

variable (rect other : IntRect)

def contains : Bool :=
  rect.x ≤ other.x && rect.maxX ≥ other.maxX && rect.y ≤ other.y && rect.maxY ≥ other.maxY

def intersects : Bool :=
  !rect.isEmpty && !other.isEmpty && rect.x < other.maxX && other.x < rect.maxX &&
    rect.y < other.maxY && other.y < rect.maxY

def unite : IntRect :=
  if other.isEmpty then rect
  else if rect.isEmpty then other
  else
    let l := min rect.x other.x
    let t := min rect.y other.y
    let r := max rect.maxX other.maxX
    let b := max rect.maxY other.maxY
    ⟨l, t, r - l, b - t⟩

def move (width height : ℤ) : IntRect :=
  { rect with x := rect.x + width, y := rect.y + height }

def Apart : Prop :=
  ∀ px py, ¬(rect.containsPoint px py = true ∧ other.containsPoint px py = true)

variable {rect : IntRect}

theorem containsPoint_iff {px py : ℤ} : rect.containsPoint px py ↔
    rect.x ≤ px ∧ px < rect.maxX ∧ rect.y ≤ py ∧ py < rect.maxY := by
  simp [containsPoint, and_assoc]

theorem contains_iff {other : IntRect} : rect.contains other ↔
    rect.x ≤ other.x ∧ other.maxX ≤ rect.maxX ∧ rect.y ≤ other.y ∧ other.maxY ≤ rect.maxY := by
  simp [contains, and_assoc]

theorem isEmpty_iff : rect.isEmpty ↔ rect.width ≤ 0 ∨ rect.height ≤ 0 := by
  simp [isEmpty]

end IntRect

namespace Shape

def spanRects (y height : ℤ) : List ℤ → List IntRect
  | x :: maxX :: rest => ⟨x, y, maxX - x, height⟩ :: spanRects y height rest
  | _ => []

def rectsLoop : List Row → List IntRect
  | (y, segments) :: (maxY, next) :: rest =>
    spanRects y (maxY - y) segments ++ rectsLoop ((maxY, next) :: rest)
  | _ => []

def containsInSpan (px : ℤ) : List ℤ → Bool
  | x :: maxX :: rest => if x > px then false else if maxX > px then true else containsInSpan px rest
  | _ => false

def containsLoop (px py : ℤ) : List Row → Bool
  | (y, segments) :: (maxY, next) :: rest =>
    if y > py then false
    else if maxY ≤ py then containsLoop px py ((maxY, next) :: rest)
    else containsInSpan px segments || containsLoop px py ((maxY, next) :: rest)
  | _ => false

def intMax : ℤ := 2 ^ 31 - 1
def intMin : ℤ := -2 ^ 31

def boundsLoop (segments : List ℤ) : List Span → ℤ → ℤ → ℤ × ℤ
  | span :: next :: rest, minX, maxX =>
    if span.segmentIndex = segments.length then boundsLoop segments (next :: rest) minX maxX
    else
      let firstSegment := segments.getD span.segmentIndex 0
      let lastSegment := segments.getD (next.segmentIndex - 1) 0
      boundsLoop segments (next :: rest) (if firstSegment < minX then firstSegment else minX)
        (if lastSegment > maxX then lastSegment else maxX)
  | _, minX, maxX => (minX, maxX)

def bounds (shape : Shape) : IntRect :=
  match shape.spans.head?, shape.spans.getLast? with
  | some span, some lastSpan =>
    let (minX, maxX) := boundsLoop shape.segments shape.spans intMax intMin
    ⟨minX, span.y, maxX - minX, lastSpan.y - span.y⟩
  | _, _ => IntRect.empty

section Points

variable {X Y : Set ℤ} {rows : List Row} {segments : List ℤ} {y : ℤ}

theorem containsInSpan_iff (h : Edges segments) (px : ℤ) :
    containsInSpan px segments ↔ inside segments px := by
  refine Edges.induction Iff.rfl (fun start stop rest hlt hrest hinside hlater ih => ?_) h
  rw [containsInSpan, hinside, ← ih]
  have hafter : containsInSpan px rest → stop < px := fun hin => hlater px (ih.mp hin)
  split_ifs with hbefore hin
  · refine iff_of_false (fun hfalse => hfalse) fun hor => ?_
    rcases hor with hfst | hrest
    · omega
    · have hpx := hafter hrest
      omega
  · exact iff_of_true rfl (.inl ⟨by omega, hin⟩)
  · exact (or_iff_right fun hfst => hin hfst.2).symm

/-- The loop over the spans finds the points of the shape. -/
theorem containsLoop_iff {previous : List ℤ} {rest : List Row}
    (h : Remaining X Y previous ((y, segments) :: rest)) (px py : ℤ) :
    containsLoop px py ((y, segments) :: rest) ↔ covers ((y, segments) :: rest) px py := by
  induction rest generalizing y previous segments with
  | nil =>
    obtain rfl : segments = [] := h.closed
    refine iff_of_false nofun fun hcov => ?_
    exact Bool.false_ne_true (covers_cons_iff.mp hcov).2
  | cons next rest ih =>
    obtain ⟨maxY, next⟩ := next
    rw [containsLoop, covers_cons_iff]
    split_ifs with habove hbelow
    · exact iff_of_false (fun hfalse => hfalse) fun hin => absurd hin.1 (not_le.mpr habove)
    · rw [ih h.tail, covers_cons_iff, value_cons_of_le hbelow]
      exact and_congr_left' (iff_of_true hbelow (not_lt.mp habove))
    · have hlater : ¬containsLoop px py ((maxY, next) :: rest) := by
        rw [ih h.tail, covers_cons_iff]
        exact fun hin => hbelow hin.1
      rw [Bool.or_eq_true, or_iff_left hlater, containsInSpan_iff h.tail.edges,
        value_cons_of_lt (not_le.mp hbelow)]
      exact (and_iff_right (not_lt.mp habove)).symm

theorem containsLoop_eq_covers (h : Canonical X Y rows) (px py : ℤ) :
    containsLoop px py rows = covers rows px py := by
  cases rows with
  | nil => rfl
  | cons row rest => exact Bool.eq_iff_iff.mpr (containsLoop_iff h px py)

/-- The rectangles of a span are not empty, follow one another and have its points. -/
theorem spanRects_spec (h : Edges segments) {height : ℤ} (hheight : 0 < height) :
    (∀ rect ∈ spanRects y height segments, rect.isEmpty = false ∧
        rect.y = y ∧ rect.maxY = y + height) ∧
      (spanRects y height segments).Pairwise (fun rect other => rect.maxX < other.x) ∧
      ∀ px, (∃ rect ∈ spanRects y height segments, rect.x ≤ px ∧ px < rect.maxX) ↔
        inside segments px := by
  refine Edges.induction ?_ ?_ h
  · exact ⟨nofun, List.Pairwise.nil, fun px => iff_of_false nofun nofun⟩
  · rintro start stop rest hlt - hin hlater ⟨hrects, happart, hcov⟩
    have hfst : IntRect.maxX ⟨start, y, stop - start, height⟩ = stop := by
      simp only [IntRect.maxX]
      omega
    refine ⟨forall_mem_cons.mpr ⟨⟨?_, rfl, rfl⟩, hrects⟩,
      pairwise_cons.mpr ⟨fun rect hrect => ?_, happart⟩, fun px => ?_⟩
    · rw [← Bool.not_eq_true, IntRect.isEmpty_iff]
      simp only
      omega
    · have hwidth : rect.x < rect.maxX := by
        have hne := (hrects rect hrect).1
        rw [← Bool.not_eq_true, IntRect.isEmpty_iff] at hne
        simp only [IntRect.maxX]
        omega
      rw [hfst]
      exact hlater rect.x ((hcov rect.x).mp ⟨rect, hrect, le_rfl, hwidth⟩)
    · rw [hin, ← hcov]
      simp only [spanRects, mem_cons, exists_eq_or_imp, hfst]

theorem rectsLoop_spec {previous : List ℤ} {rest : List Row}
    (h : Remaining X Y previous ((y, segments) :: rest)) :
    (∀ rect ∈ rectsLoop ((y, segments) :: rest), rect.isEmpty = false ∧ y ≤ rect.y) ∧
      (rectsLoop ((y, segments) :: rest)).Pairwise IntRect.Apart ∧
      ∀ px py, (∃ rect ∈ rectsLoop ((y, segments) :: rest), rect.containsPoint px py) ↔
        covers ((y, segments) :: rest) px py := by
  induction rest generalizing y previous segments with
  | nil =>
    obtain rfl : segments = [] := h.closed
    refine ⟨nofun, List.Pairwise.nil, fun px py => iff_of_false nofun fun hcov => ?_⟩
    exact Bool.false_ne_true (covers_cons_iff.mp hcov).2
  | cons next rest ih =>
    obtain ⟨maxY, next⟩ := next
    have hlt : y < maxY := (pairwise_cons.mp h.ascending).1 _ mem_cons_self
    obtain ⟨hne, happart, hcov⟩ := ih h.tail
    obtain ⟨hspan, hspanApart, hspanCovers⟩ :=
      spanRects_spec h.tail.edges (y := y) (show 0 < maxY - y by omega)
    have hbottom : ∀ rect ∈ spanRects y (maxY - y) segments, rect.maxY = maxY := fun rect hrect => by
      rw [(hspan rect hrect).2.2]
      omega
    rw [rectsLoop]
    refine ⟨fun rect hrect => ?_, pairwise_append.mpr ⟨?_, happart, ?_⟩, fun px py => ?_⟩
    · rcases mem_append.mp hrect with hfst | hlater
      · exact ⟨(hspan rect hfst).1, (hspan rect hfst).2.1.ge⟩
      · exact ⟨(hne rect hlater).1, hlt.le.trans (hne rect hlater).2⟩
    · refine hspanApart.imp fun hbeside px py hboth => ?_
      simp only [IntRect.containsPoint_iff] at hboth
      omega
    · intro rect hrect other hoth px py hboth
      have hrectY := hbottom rect hrect
      have hotherY := (hne other hoth).2
      simp only [IntRect.containsPoint_iff] at hboth
      omega
    · have hsplit : (∃ rect ∈ spanRects y (maxY - y) segments ++ rectsLoop ((maxY, next) :: rest),
          rect.containsPoint px py) ↔
          (y ≤ py ∧ py < maxY ∧ inside segments px) ∨ covers ((maxY, next) :: rest) px py := by
        simp only [mem_append, or_and_right, exists_or]
        refine or_congr ⟨?_, ?_⟩ (hcov px py)
        · rintro ⟨rect, hrect, hin⟩
          rw [IntRect.containsPoint_iff, (hspan rect hrect).2.1, hbottom rect hrect] at hin
          exact ⟨hin.2.2.1, hin.2.2.2, (hspanCovers px).mp ⟨rect, hrect, hin.1, hin.2.1⟩⟩
        · rintro ⟨hlow, hhigh, hin⟩
          obtain ⟨rect, hrect, hx⟩ := (hspanCovers px).mpr hin
          refine ⟨rect, hrect, ?_⟩
          rw [IntRect.containsPoint_iff, (hspan rect hrect).2.1, hbottom rect hrect]
          exact ⟨hx.1, hx.2, hlow, hhigh⟩
      rw [hsplit, covers_cons_iff, covers_cons_iff]
      rcases lt_or_ge py maxY with hpy | hpy
      · rw [value_cons_of_lt hpy]
        constructor
        · rintro (⟨hlow, -, hin⟩ | ⟨hhigh, -⟩)
          · exact ⟨hlow, hin⟩
          · omega
        · exact fun hin => .inl ⟨hin.1, hpy, hin.2⟩
      · rw [value_cons_of_le hpy]
        constructor
        · rintro (⟨-, hhigh, -⟩ | ⟨-, hin⟩)
          · omega
          · exact ⟨by omega, hin⟩
        · exact fun hin => .inr ⟨hpy, hin.2⟩

end Points

section Bounds

variable {X Y : Set ℤ} {rows : List Row} {segments : List ℤ} {x : ℤ} {row : Row}

theorem Edges.le_of_head {first : ℤ} (h : Edges segments) (hfst : segments.head? = some first)
    (hx : x ∈ segments) : first ≤ x := by
  obtain ⟨rest, rfl⟩ := head?_eq_some_iff.mp hfst
  rcases mem_cons.mp hx with rfl | hrest
  · exact le_rfl
  · exact ((pairwise_cons.mp h.sorted).1 x hrest).le

theorem Edges.le_of_getLast {last : ℤ} (h : Edges segments) (hlast : segments.getLast? = some last)
    (hx : x ∈ segments) : x ≤ last := by
  obtain ⟨init, rfl⟩ := getLast?_eq_some_iff.mp hlast
  rcases mem_append.mp hx with hinit | hself
  · exact ((pairwise_append.mp h.sorted).2.2 x hinit last (mem_singleton_self _)).le
  · exact (mem_singleton.mp hself).le

/-- A turn of the loop reads the ends of the segments of the span, or of its neighbours if it has
none. -/
theorem read_ends {before previous : List ℤ} {next : Row} {rest : List Row}
    (h : Remaining X Y previous (row :: next :: rest))
    (hbefore : previous ≠ [] → before.getLast? = previous.getLast?) :
    ∃ first last, (before ++ (row :: next :: rest).flatMap Prod.snd).getD before.length 0 = first ∧
      (before ++ (row :: next :: rest).flatMap Prod.snd).getD (before.length + row.2.length - 1) 0 =
        last ∧
      before.length ≠ (before ++ (row :: next :: rest).flatMap Prod.snd).length ∧
      ((row.2 ≠ [] ∧ row.2.head? = some first ∧ row.2.getLast? = some last) ∨
        (row.2 = [] ∧ next.2.head? = some first ∧ previous.getLast? = some last)) := by
  obtain ⟨y, segments⟩ := row
  by_cases hrow : segments = []
  · subst hrow
    obtain ⟨hprev, hnext, -⟩ := h.coalesced
    obtain ⟨first, next', hfst⟩ := exists_cons_of_ne_nil hnext
    obtain ⟨init, last, hlast⟩ := (eq_nil_or_concat' previous).resolve_left hprev.symm
    have hend : previous.getLast? = some last := by rw [hlast, getLast?_concat]
    rw [hend] at hbefore
    obtain ⟨init', rfl⟩ := getLast?_eq_some_iff.mp (hbefore hprev.symm)
    refine ⟨first, last, ?_, ?_, ?_, .inr ⟨rfl, by rw [hfst]; rfl, hend⟩⟩
    · simp [hfst]
    · simp
    · simp [hfst]
  · obtain ⟨first, rest', rfl⟩ := exists_cons_of_ne_nil hrow
    obtain ⟨init, last, hlast⟩ := (eq_nil_or_concat' (first :: rest')).resolve_left hrow
    refine ⟨first, last, by simp, ?_, by simp, .inl ⟨hrow, rfl, ?_⟩⟩
    · rw [flatMap_cons, hlast]
      simp
    · simp only [hlast, getLast?_concat]

theorem boundsLoop_spec {before previous : List ℤ} (h : Remaining X Y previous rows)
    (hbefore : previous ≠ [] → before.getLast? = previous.getLast?) (minX maxX : ℤ) :
    ∃ low high, boundsLoop (before ++ rows.flatMap Prod.snd) (spansOf before.length rows) minX maxX =
        (low, high) ∧ low ≤ minX ∧ maxX ≤ high ∧
      (∀ row ∈ rows, ∀ x ∈ row.2, low ≤ x ∧ x ≤ high) ∧
      (low = minX ∨ ∃ row ∈ rows, row.2.head? = some low) ∧
      (high = maxX ∨ previous.getLast? = some high ∨ ∃ row ∈ rows, row.2.getLast? = some high) := by
  induction rows generalizing before previous minX maxX with
  | nil => exact ⟨minX, maxX, rfl, le_rfl, le_rfl, nofun, .inl rfl, .inl rfl⟩
  | cons row rest ih =>
    cases rest with
    | nil =>
      have hrow : row.2 = [] := h.closed
      refine ⟨minX, maxX, rfl, le_rfl, le_rfl, fun other hoth x hx => ?_, .inl rfl, .inl rfl⟩
      rw [mem_singleton.mp hoth, hrow] at hx
      cases hx
    | cons next rest =>
      obtain ⟨first, last, hfst, hlast, hidx, hread⟩ := read_ends h hbefore
      have hnext : row.2 ≠ [] → (before ++ row.2).getLast? = row.2.getLast? := fun hne => by
        rw [getLast?_append_of_ne_nil _ hne]
      obtain ⟨low, high, heq, hlow, hhigh, hall, hlowMem, hhighMem⟩ := ih h.tail hnext
        (if first < minX then first else minX) (if last > maxX then last else maxX)
      have hsegs : before ++ row.2 ++ (next :: rest).flatMap Prod.snd =
          before ++ (row :: next :: rest).flatMap Prod.snd := by
        rw [append_assoc, ← flatMap_cons]
      rw [hsegs, length_append] at heq
      have hlowFirst : low ≤ minX ∧ low ≤ first := by
        split_ifs at hlow <;> omega
      have hhighLast : maxX ≤ high ∧ last ≤ high := by
        split_ifs at hhigh <;> omega
      refine ⟨low, high, ?_, hlowFirst.1, hhighLast.1, forall_mem_cons.mpr ⟨fun x hx => ?_, hall⟩,
        ?_, ?_⟩
      · rw [← heq]
        simp only [spansOf, boundsLoop, if_neg hidx, hfst, hlast]
      · rcases hread with ⟨-, hhead, htail⟩ | ⟨hnil, -⟩
        · exact ⟨hlowFirst.2.trans (h.tail.edges.le_of_head hhead hx),
            (h.tail.edges.le_of_getLast htail hx).trans hhighLast.2⟩
        · rw [hnil] at hx
          cases hx
      · have hfirstMem : ∃ other ∈ row :: next :: rest, other.2.head? = some first := by
          rcases hread with ⟨-, hhead, -⟩ | ⟨-, hhead, -⟩
          · exact ⟨row, mem_cons_self, hhead⟩
          · exact ⟨next, mem_cons_of_mem _ mem_cons_self, hhead⟩
        rcases hlowMem with hsame | ⟨other, hoth, hhead⟩
        · split_ifs at hsame
          · exact .inr (hsame ▸ hfirstMem)
          · exact .inl hsame
        · exact .inr ⟨other, mem_cons_of_mem _ hoth, hhead⟩
      · have hlastMem : previous.getLast? = some last ∨
            ∃ other ∈ row :: next :: rest, other.2.getLast? = some last := by
          rcases hread with ⟨-, -, htail⟩ | ⟨-, -, htail⟩
          · exact .inr ⟨row, mem_cons_self, htail⟩
          · exact .inl htail
        rcases hhighMem with hsame | hrow | ⟨other, hoth, htail⟩
        · split_ifs at hsame
          · exact .inr (hsame ▸ hlastMem)
          · exact .inl hsame
        · exact .inr (.inr ⟨row, mem_cons_self, hrow⟩)
        · exact .inr (.inr ⟨other, mem_cons_of_mem _ hoth, htail⟩)

theorem Edges.exists_mem_of_inside (h : Edges segments) (hx : inside segments x) :
    ∃ start ∈ segments, ∃ stop ∈ segments, start ≤ x ∧ x < stop := by
  revert hx
  refine Edges.induction nofun ?_ h
  intro start stop rest hlt hrest hinside hlater ih hx
  rcases (hinside x).mp hx with hin | hin
  · exact ⟨start, by simp, stop, by simp, hin⟩
  · obtain ⟨start', hstart, stop', hstop, hbetween⟩ := ih hin
    exact ⟨start', by simp [hstart], stop', by simp [hstop], hbetween⟩

theorem Edges.inside_head {first : ℤ} (h : Edges segments) (hfst : segments.head? = some first) :
    inside segments first := by
  obtain ⟨rest, rfl⟩ := head?_eq_some_iff.mp hfst
  exact inside_first h.sorted

theorem Edges.inside_getLast {last : ℤ} (h : Edges segments) (hlast : segments.getLast? = some last) :
    inside segments (last - 1) := by
  revert hlast
  refine Edges.induction nofun ?_ h
  intro start stop rest hlt hrest hin hlater ih hlast
  rw [hin]
  cases rest with
  | nil =>
    obtain rfl : stop = last := Option.some.inj hlast
    exact .inl ⟨by omega, by omega⟩
  | cons next rest => exact .inr (ih hlast)

structure Bounds (bounds : IntRect) (rows : List Row) : Prop where
  contains : ∀ x y, covers rows x y = true → bounds.containsPoint x y = true
  left : rows ≠ [] → ∃ y, covers rows bounds.x y = true
  right : rows ≠ [] → ∃ y, covers rows (bounds.maxX - 1) y = true
  top : rows ≠ [] → ∃ x, covers rows x bounds.y = true
  bottom : rows ≠ [] → ∃ x, covers rows x (bounds.maxY - 1) = true
  empty : rows = [] → bounds.isEmpty = true

theorem Bounds.contains_of_forall {bounds rect : IntRect} (h : Bounds bounds rows) (hne : rows ≠ [])
    (hin : ∀ x y, covers rows x y → rect.containsPoint x y) : rect.contains bounds := by
  obtain ⟨yl, hleft⟩ := h.left hne
  obtain ⟨yr, hright⟩ := h.right hne
  obtain ⟨xt, htop⟩ := h.top hne
  obtain ⟨xb, hbottom⟩ := h.bottom hne
  have hleft' := IntRect.containsPoint_iff.mp (hin _ _ hleft)
  have hright' := IntRect.containsPoint_iff.mp (hin _ _ hright)
  have htop' := IntRect.containsPoint_iff.mp (hin _ _ htop)
  have hbottom' := IntRect.containsPoint_iff.mp (hin _ _ hbottom)
  rw [IntRect.contains_iff]
  omega

theorem Canonical.covers_row (h : Canonical X Y rows) (hrow : row ∈ rows) :
    covers rows x row.1 = inside row.2 x := by
  rw [covers, value_of_mem h.ascending hrow]

theorem map_y_spansOf (index : ℕ) (rows : List Row) :
    (spansOf index rows).map Span.y = rows.map Prod.fst := by
  induction rows generalizing index with
  | nil => rfl
  | cons row rest ih => rw [spansOf, map_cons, map_cons, ih]

/-- The shape is between its first ordinate and its last one. -/
theorem Canonical.between {last : Row} {rest : List Row} (h : Canonical X Y (row :: rest))
    (hlast : (row :: rest).getLast? = some last) {y : ℤ} (hcov : covers (row :: rest) x y) :
    row.1 ≤ y ∧ y < last.1 := by
  refine ⟨(covers_cons_iff.mp hcov).1, ?_⟩
  by_contra hge
  obtain ⟨init, hinit⟩ := getLast?_eq_some_iff.mp hlast
  have hbelow : ∀ other ∈ row :: rest, other.1 ≤ y := by
    intro other hoth
    have hascending := h.ascending
    rw [hinit] at hoth hascending
    rcases mem_append.mp hoth with hmem | hmem
    · have hlt := (pairwise_append.mp hascending).2.2 other hmem last (mem_singleton_self _)
      exact hlt.le.trans (not_lt.mp hge)
    · rw [mem_singleton.mp hmem]
      exact not_lt.mp hge
  rw [covers, value_of_le hbelow, h.closed] at hcov
  exact Bool.false_ne_true hcov

theorem bounds_spec (h : Canonical X Y rows) (hint : ∀ x ∈ X, intMin ≤ x ∧ x ≤ intMax) :
    Bounds (ofRows rows).bounds rows := by
  match rows, h with
  | [], _ => exact ⟨nofun, by simp, by simp, by simp, by simp, fun _ => rfl⟩
  | [(y, segments)], h => exact absurd h.closed h.coalesced.1
  | (y, segments) :: (maxY, next) :: rest, h =>
    obtain ⟨low, high, heq, -, -, hall, hlow, hhigh⟩ := boundsLoop_spec h
      (show ([] : List ℤ) ≠ [] → ([] : List ℤ).getLast? = [].getLast? from fun _ => rfl) intMax intMin
    obtain ⟨last, x, hlast, hlt, -, hx⟩ := h.exists_inside
    rw [← getLast?_cons_cons (a := (y, segments))] at hlast
    have hbds : (ofRows ((y, segments) :: (maxY, next) :: rest)).bounds =
        ⟨low, y, high - low, last.1 - y⟩ := by
      have hend := congrArg getLast? (map_y_spansOf 0 ((y, segments) :: (maxY, next) :: rest))
      rw [getLast?_map, getLast?_map, hlast] at hend
      obtain ⟨lastSpan, hlastSpan, hy⟩ := Option.map_eq_some_iff.mp hend
      have hhead : (spansOf 0 ((y, segments) :: (maxY, next) :: rest)).head? = some ⟨y, 0⟩ := rfl
      simp only [nil_append, length_nil] at heq
      simp only [bounds, ofRows, hhead, hlastSpan, heq, hy]
    rw [hbds]
    obtain ⟨first, rest', hfst⟩ := exists_cons_of_ne_nil h.coalesced.1
    have hfirstX : first ∈ X := h.tail.x_mem first (hfst ▸ mem_cons_self)
    have hfstRow : (y, segments) ∈ (y, segments) :: (maxY, next) :: rest := mem_cons_self
    have hfirstBetween := hall _ hfstRow first (hfst ▸ mem_cons_self)
    have hlowRow : ∃ row ∈ (y, segments) :: (maxY, next) :: rest, row.2.head? = some low := by
      rcases hlow with rfl | hrow
      · refine ⟨(y, segments), hfstRow, ?_⟩
        have hle := (hint first hfirstX).2
        rw [hfst, head?_cons, le_antisymm hle hfirstBetween.1]
      · exact hrow
    have hhighRow : ∃ row ∈ (y, segments) :: (maxY, next) :: rest, row.2.getLast? = some high := by
      rcases hhigh with rfl | hnil | hrow
      · obtain ⟨start, stop, rest'', hedges, hless, -⟩ := h.tail.edges.cases.resolve_left h.coalesced.1
        have hstart := (hint start (h.tail.x_mem start (hedges ▸ mem_cons_self))).1
        have hstop := (hall _ hfstRow stop (hedges ▸ mem_cons_of_mem _ mem_cons_self)).2
        omega
      · exact absurd hnil (by simp)
      · exact hrow
    have hright : IntRect.maxX ⟨low, y, high - low, last.1 - y⟩ = high := by
      simp only [IntRect.maxX]
      omega
    have hbottom : IntRect.maxY ⟨low, y, high - low, last.1 - y⟩ = last.1 := by
      simp only [IntRect.maxY]
      omega
    refine ⟨fun px py hcov => ?_, fun _ => ?_, fun _ => ?_, fun _ => ?_, fun _ => ?_,
      fun hnil => absurd hnil (cons_ne_nil _ _)⟩
    · obtain ⟨hlowY, hhighY⟩ := h.between hlast hcov
      rw [IntRect.containsPoint_iff, hright, hbottom]
      suffices hpx : low ≤ px ∧ px < high from ⟨hpx.1, hpx.2, hlowY, hhighY⟩
      obtain ⟨start, hstart, stop, hstop, hbetween⟩ := (h.edges_value py).exists_mem_of_inside hcov
      rcases value_mem [] ((y, segments) :: (maxY, next) :: rest) py with hnil | ⟨row, hrow, hval⟩
      · rw [hnil] at hstart
        cases hstart
      · rw [← hval] at hstart hstop
        exact ⟨(hall row hrow start hstart).1.trans hbetween.1,
          hbetween.2.trans_le (hall row hrow stop hstop).2⟩
    · obtain ⟨row, hrow, hhead⟩ := hlowRow
      exact ⟨row.1, (h.covers_row hrow).trans ((h.within row hrow).edges.inside_head hhead)⟩
    · obtain ⟨row, hrow, htail⟩ := hhighRow
      rw [hright]
      exact ⟨row.1, (h.covers_row hrow).trans ((h.within row hrow).edges.inside_getLast htail)⟩
    · refine ⟨first, (h.covers_row hfstRow).trans (h.tail.edges.inside_head ?_)⟩
      rw [hfst, head?_cons]
    · rw [hbottom]
      exact ⟨x, covers_cons_iff.mpr ⟨Int.le_sub_one_of_lt hlt, hx⟩⟩

end Bounds

end Shape

end WebKit.Graphics
