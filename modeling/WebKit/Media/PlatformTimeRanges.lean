import WebKit.Foundation.SeparatedIntervals

/-!
The buffered-range list of `PlatformTimeRanges`. Times are an arbitrary linear
order with a least and a greatest element, the two infinities. `add` merges the
new range with every stored range it overlaps or touches while it scans the
vector, and `invert`, `unionWith` and `intersectWith` are built from `add`.
Every history of these operations keeps the stored ranges separated and computes
the expected set of finite times.
-/

namespace WebKit.PlatformTimeRanges

open List SeparatedIntervals

variable {T : Type*} [LinearOrder T]

structure Range (T : Type*) where
  mStart : T
  mEnd : T
  deriving DecidableEq, Repr

namespace Range

def isPointInRange (r : Range T) (point : T) : Bool :=
  r.mStart ≤ point && point < r.mEnd

variable (r range : Range T)

def isOverlappingRange : Bool :=
  r.isPointInRange range.mStart || r.isPointInRange range.mEnd ||
    range.isPointInRange r.mStart

def isContiguousWithRange : Bool :=
  range.mStart == r.mEnd || range.mEnd == r.mStart

def unionWithOverlappingOrContiguousRange : Range T :=
  ⟨min r.mStart range.mStart, max r.mEnd range.mEnd⟩

def isBeforeRange : Bool :=
  range.mStart ≥ r.mEnd

def toPair (r : Range T) : T × T := (r.mStart, r.mEnd)

end Range

/-- The scan of `add` over the ranges that follow `before`; the position in the vector is
`before.length`. -/
def addLoop (before : List (Range T)) (addedRange : Range T) :
    List (Range T) → List (Range T)
  | [] => before ++ [addedRange]
  | range :: rest =>
    if addedRange.isOverlappingRange range || addedRange.isContiguousWithRange range then
      addLoop before (addedRange.unionWithOverlappingOrContiguousRange range) rest
    else
      match before.getLast? with
      | none =>
        if addedRange.isBeforeRange range then before ++ addedRange :: range :: rest
        else addLoop (before ++ [range]) addedRange rest
      | some previous =>
        if previous.isBeforeRange addedRange && addedRange.isBeforeRange range then
          before ++ addedRange :: range :: rest
        else addLoop (before ++ [range]) addedRange rest

section

variable (ranges : List (Range T))

def add (start stop : T) : List (Range T) :=
  addLoop [] ⟨start, stop⟩ ranges

def unionWith (ranges other : List (Range T)) : List (Range T) :=
  other.foldl (fun unioned range => add unioned range.mStart range.mEnd) ranges

def addInnerGaps (inverted : List (Range T)) : List (Range T) → List (Range T)
  | range :: next :: rest =>
    addInnerGaps (add inverted range.mEnd next.mStart) (next :: rest)
  | _ => inverted

section Infinities

variable [BoundedOrder T]

def invert (ranges : List (Range T)) : List (Range T) :=
  match ranges.head?, ranges.getLast? with
  | some first, some last =>
    let leading := if first.mStart ≠ ⊥ then add [] ⊥ first.mStart else []
    let inner := addInnerGaps leading ranges
    if last.mEnd ≠ ⊤ then add inner last.mEnd ⊤ else inner
  | _, _ => add [] ⊥ ⊤

def intersectWith (ranges other : List (Range T)) : List (Range T) :=
  invert (unionWith (invert ranges) (invert other))

end Infinities

def Ordered : Prop :=
  (∀ range ∈ ranges, range.mStart ≤ range.mEnd) ∧
    ranges.Pairwise (fun range next => range.mEnd < next.mStart)

def times : Set T :=
  {t | ∃ range ∈ ranges, range.mStart ≤ t ∧ t < range.mEnd}

theorem ordered_iff_separated : Ordered ranges ↔ Separated (ranges.map Range.toPair) := by
  simp [Ordered, Separated, Range.toPair, pairwise_map]

theorem times_eq_covers : times ranges = covers (ranges.map Range.toPair) := by
  ext t
  simp [times, covers, Range.toPair]

theorem ordered_nil : Ordered ([] : List (Range T)) := by
  simp [Ordered]

@[simp]
theorem times_append (left right : List (Range T)) :
    times (left ++ right) = times left ∪ times right := by
  simp [times_eq_covers]

@[simp]
theorem times_cons (range : Range T) (rest : List (Range T)) :
    times (range :: rest) = Set.Ico range.mStart range.mEnd ∪ times rest := by
  simp [times_eq_covers, Range.toPair]

@[simp]
theorem times_nil : times ([] : List (Range T)) = ∅ := by
  simp [times_eq_covers]

/-- The merge test accepts exactly the ranges whose closures meet. -/
theorem merges_iff_touching (added range : Range T) (hadded : added.mStart ≤ added.mEnd)
    (hrng : range.mStart ≤ range.mEnd) :
    (added.isOverlappingRange range || added.isContiguousWithRange range) = true ↔
      Touching added.toPair range.toPair := by
  simp only [Range.isOverlappingRange, Range.isContiguousWithRange, Range.isPointInRange,
    Touching, Range.toPair, Bool.or_eq_true, Bool.and_eq_true, decide_eq_true_eq, beq_iff_eq]
  constructor
  · rintro (((h | h) | h) | (h | h))
    · exact ⟨h.2.le, h.1.trans hrng⟩
    · exact ⟨hrng.trans h.2.le, h.1⟩
    · exact ⟨h.1.trans hadded, h.2.le⟩
    · exact ⟨h.le, hadded.trans (h.ge.trans hrng)⟩
    · exact ⟨hrng.trans (h.le.trans hadded), h.ge⟩
  · rintro ⟨h1, h2⟩
    rcases le_total added.mStart range.mStart with hle | hle
    · rcases h1.lt_or_eq with hlt | heq
      · exact .inl (.inl (.inl ⟨hle, hlt⟩))
      · exact .inr (.inl heq)
    · rcases h2.lt_or_eq with hlt | heq
      · exact .inl (.inr ⟨hle, hlt⟩)
      · exact .inr (.inr heq.symm)

/-- The scanning invariant of `add`: the ranges already passed end before the
range being added starts, and before every range still to be scanned. -/
structure Scanning (before : List (Range T)) (added : Range T) (rest : List (Range T)) :
    Prop where
  added_le : added.mStart ≤ added.mEnd
  before_ordered : Ordered before
  rest_ordered : Ordered rest
  before_added : ∀ range ∈ before, range.mEnd < added.mStart
  before_rest : ∀ range ∈ before, ∀ next ∈ rest, range.mEnd < next.mStart

theorem ordered_cons {range : Range T} {rest : List (Range T)} :
    Ordered (range :: rest) ↔ range.mStart ≤ range.mEnd ∧
      (∀ next ∈ rest, range.mEnd < next.mStart) ∧ Ordered rest := by
  simp [ordered_iff_separated, separated_cons, Range.toPair]

theorem ordered_append {left right : List (Range T)} :
    Ordered (left ++ right) ↔ Ordered left ∧ Ordered right ∧
      ∀ range ∈ left, ∀ next ∈ right, range.mEnd < next.mStart := by
  simp [ordered_iff_separated, separated_append, Range.toPair]

namespace Scanning

variable {before rest : List (Range T)} {added range : Range T}

/-- Merging the next range keeps the invariant. -/
theorem merge (h : Scanning before added (range :: rest)) :
    Scanning before (added.unionWithOverlappingOrContiguousRange range) rest := by
  obtain ⟨hrng, -, hrest⟩ := ordered_cons.mp h.rest_ordered
  refine ⟨?_, h.before_ordered, hrest, ?_, ?_⟩
  · exact (min_le_left _ _).trans (h.added_le.trans (le_max_left _ _))
  · intro r hr
    exact lt_min (h.before_added r hr) (h.before_rest r hr range mem_cons_self)
  · intro r hr next hnext
    exact h.before_rest r hr next (mem_cons_of_mem _ hnext)

/-- Passing a range that ends before the added one starts keeps the invariant. -/
theorem pass (h : Scanning before added (range :: rest)) (hlt : range.mEnd < added.mStart) :
    Scanning (before ++ [range]) added rest := by
  obtain ⟨hrng, hnext, hrest⟩ := ordered_cons.mp h.rest_ordered
  refine ⟨h.added_le, ?_, hrest, ?_, ?_⟩
  · refine ordered_append.mpr ⟨h.before_ordered, ordered_cons.mpr ⟨hrng, by simp, ordered_nil⟩, ?_⟩
    intro r hr next hmem
    rw [mem_singleton] at hmem
    exact hmem ▸ h.before_rest r hr range mem_cons_self
  · intro r hr
    rcases mem_append.mp hr with hr | hr
    · exact h.before_added r hr
    · exact mem_singleton.mp hr ▸ hlt
  · intro r hr next hmem
    rcases mem_append.mp hr with hr | hr
    · exact h.before_rest r hr next (mem_cons_of_mem _ hmem)
    · exact mem_singleton.mp hr ▸ hnext next hmem

/-- The insertion position reached by the scan gives an ordered vector. -/
theorem insert (h : Scanning before added rest) (hlt : ∀ next ∈ rest, added.mEnd < next.mStart) :
    Ordered (before ++ added :: rest) := by
  refine ordered_append.mpr ⟨h.before_ordered,
    ordered_cons.mpr ⟨h.added_le, hlt, h.rest_ordered⟩, ?_⟩
  intro r hr next hmem
  rcases mem_cons.mp hmem with rfl | hmem
  · exact h.before_added r hr
  · exact h.before_rest r hr next hmem

end Scanning

/-- A range that does not merge is passed unless the added range lies before it;
the last range already passed never changes that decision. -/
theorem addLoop_of_not_merges (before : List (Range T)) (added range : Range T)
    (rest : List (Range T)) (h : Scanning before added (range :: rest))
    (hmerge : ¬ (added.isOverlappingRange range || added.isContiguousWithRange range)) :
    addLoop before added (range :: rest) =
      if added.mEnd ≤ range.mStart then before ++ added :: range :: rest
      else addLoop (before ++ [range]) added rest := by
  rw [addLoop, if_neg hmerge]
  cases hlast : before.getLast? with
  | none => simp [Range.isBeforeRange]
  | some previous =>
    have hmem : previous ∈ before := mem_of_getLast? hlast
    have hle : previous.mEnd ≤ added.mStart := (h.before_added previous hmem).le
    simp [Range.isBeforeRange, hle]

/-- One run of the scan: the vector stays ordered and gains exactly the added times. -/
theorem addLoop_spec (rest before : List (Range T)) (added : Range T)
    (h : Scanning before added rest) :
    Ordered (addLoop before added rest) ∧ times (addLoop before added rest) =
        times before ∪ Set.Ico added.mStart added.mEnd ∪ times rest := by
  induction rest generalizing before added with
  | nil =>
    refine ⟨h.insert (by simp), ?_⟩
    simp [addLoop]
  | cons range rest ih =>
    obtain ⟨hrng, hnext, hrest⟩ := ordered_cons.mp h.rest_ordered
    have htouch := merges_iff_touching added range h.added_le hrng
    by_cases hmerge : (added.isOverlappingRange range || added.isContiguousWithRange range)
    · obtain ⟨hord, htimes⟩ := ih before _ h.merge
      rw [addLoop, if_pos hmerge]
      refine ⟨hord, ?_⟩
      have hhull : Set.Ico (min added.mStart range.mStart) (max added.mEnd range.mEnd) =
          Set.Ico added.mStart added.mEnd ∪ Set.Ico range.mStart range.mEnd :=
        (Set.Ico_union_Ico' (htouch.mp hmerge).1 (htouch.mp hmerge).2).symm
      rw [htimes, times_cons]
      simp only [Range.unionWithOverlappingOrContiguousRange, hhull, Set.union_assoc]
    · rw [addLoop_of_not_merges before added range rest h hmerge]
      have hsplit : added.mEnd < range.mStart ∨ range.mEnd < added.mStart := by
        by_contra hboth
        push Not at hboth
        exact hmerge (htouch.mpr ⟨hboth.1, hboth.2⟩)
      rcases hsplit with hlt | hlt
      · rw [if_pos hlt.le]
        refine ⟨h.insert ?_, ?_⟩
        · intro next hmem
          rcases mem_cons.mp hmem with rfl | hmem
          · exact hlt
          · exact hlt.trans (hrng.trans_lt (hnext next hmem))
        · simp only [times_append, times_cons, Set.union_assoc]
      · have hnot : ¬ added.mEnd ≤ range.mStart :=
          not_le.mpr (hrng.trans_lt (hlt.trans_le h.added_le))
        rw [if_neg hnot]
        obtain ⟨hord, htimes⟩ := ih (before ++ [range]) added (h.pass hlt)
        refine ⟨hord, ?_⟩
        rw [htimes]
        simp only [times_append, times_cons, times_nil, Set.union_empty]
        ac_rfl

theorem add_spec (start stop : T) (h : Ordered ranges) (hle : start ≤ stop) :
    Ordered (add ranges start stop) ∧
      times (add ranges start stop) = times ranges ∪ Set.Ico start stop := by
  obtain ⟨hord, htimes⟩ := addLoop_spec ranges [] ⟨start, stop⟩
    ⟨hle, ordered_nil, h, by simp, by simp⟩
  refine ⟨hord, ?_⟩
  rw [add, htimes, times_nil, Set.empty_union, Set.union_comm]

end

/-- Adding ordered ranges one by one yields the union of all of them. -/
theorem unionWith_spec (ranges other : List (Range T)) (h : Ordered ranges)
    (hoth : ∀ range ∈ other, range.mStart ≤ range.mEnd) :
    Ordered (unionWith ranges other) ∧
      times (unionWith ranges other) = times ranges ∪ times other := by
  induction other generalizing ranges with
  | nil => simpa [unionWith] using h
  | cons range rest ih =>
    obtain ⟨hord, htimes⟩ := add_spec ranges range.mStart range.mEnd h
      (hoth range mem_cons_self)
    obtain ⟨hord', htimes'⟩ := ih (add ranges range.mStart range.mEnd) hord
      (fun r hr => hoth r (mem_cons_of_mem _ hr))
    refine ⟨hord', ?_⟩
    change times (unionWith (add ranges range.mStart range.mEnd) rest) = _
    rw [htimes', htimes, times_cons, Set.union_assoc]

/-- With the gap after the last range, the inner gaps are the gaps of the list. -/
theorem addInnerGaps_spec (rest inverted : List (Range T)) (first last : Range T) (high : T)
    (h : Ordered (first :: rest)) (hinverted : Ordered inverted)
    (hlast : (first :: rest).getLast? = some last) :
    Ordered (addInnerGaps inverted (first :: rest)) ∧
      times (addInnerGaps inverted (first :: rest)) ∪ Set.Ico last.mEnd high =
        times inverted ∪ covers (gaps first.mEnd (rest.map Range.toPair) high) := by
  induction rest generalizing inverted first with
  | nil =>
    obtain rfl : first = last := by simpa using hlast
    simpa [addInnerGaps, gaps] using hinverted
  | cons next rest ih =>
    obtain ⟨hfst, hnext, hrest⟩ := ordered_cons.mp h
    have hgap : first.mEnd ≤ next.mStart := (hnext next mem_cons_self).le
    obtain ⟨hord, htimes⟩ := add_spec inverted first.mEnd next.mStart hinverted hgap
    rw [getLast?_cons_cons] at hlast
    obtain ⟨hord', htimes'⟩ := ih _ next hrest hord hlast
    refine ⟨hord', ?_⟩
    rw [addInnerGaps, htimes', htimes, map_cons, gaps, covers_cons, Set.union_assoc]
    rfl

section Infinities

variable [BoundedOrder T]

/-- Inversion covers the gaps of the stored ranges between the two infinities. -/
theorem invert_times (ranges : List (Range T)) (h : Ordered ranges) : Ordered (invert ranges) ∧
      times (invert ranges) = covers (gaps ⊥ (ranges.map Range.toPair) ⊤) := by
  cases ranges with
  | nil =>
    obtain ⟨hord, htimes⟩ := add_spec ([] : List (Range T)) ⊥ ⊤ ordered_nil bot_le
    refine ⟨hord, ?_⟩
    change times (add [] ⊥ ⊤) = _
    simp [htimes, gaps]
  | cons first rest =>
    obtain ⟨last, hlast⟩ : ∃ last, (first :: rest).getLast? = some last :=
      ⟨_, getLast?_eq_some_getLast (cons_ne_nil first rest)⟩
    have hinvert : invert (first :: rest) =
        let leading := if first.mStart ≠ ⊥ then add [] ⊥ first.mStart else []
        let inner := addInnerGaps leading (first :: rest)
        if last.mEnd ≠ ⊤ then add inner last.mEnd ⊤ else inner := by
      simp only [invert, head?_cons, hlast]
    set leading := if first.mStart ≠ ⊥ then add [] ⊥ first.mStart else [] with hleading
    have hlead : Ordered leading ∧ times leading = Set.Ico ⊥ first.mStart := by
      by_cases hbot : first.mStart = ⊥
      · simp [hleading, hbot, ordered_nil]
      · simpa [hleading, hbot] using
          add_spec ([] : List (Range T)) ⊥ first.mStart ordered_nil bot_le
    obtain ⟨hord, htimes⟩ := addInnerGaps_spec rest leading first last ⊤ h hlead.1 hlast
    have hgaps : covers (gaps ⊥ ((first :: rest).map Range.toPair) ⊤) =
        times (addInnerGaps leading (first :: rest)) ∪ Set.Ico last.mEnd ⊤ := by
      rw [htimes, hlead.2, map_cons, gaps, covers_cons]
      rfl
    rw [hinvert, hgaps]
    by_cases htop : last.mEnd = ⊤
    · simpa [htop] using hord
    · simpa [htop] using add_spec _ last.mEnd ⊤ hord le_top

/-- A finite time is in the inverted ranges exactly when it was not in the ranges. -/
theorem invert_spec (ranges : List (Range T)) (h : Ordered ranges) : Ordered (invert ranges) ∧
      ∀ t, t < ⊤ → (t ∈ times (invert ranges) ↔ t ∉ times ranges) := by
  obtain ⟨hord, htimes⟩ := invert_times ranges h
  refine ⟨hord, fun t ht => ?_⟩
  rw [htimes, times_eq_covers]
  exact mem_covers_gaps _ ⊥ ⊤ t ((ordered_iff_separated ranges).mp h)
    (fun _ _ => bot_le) bot_le ht

/-- Intersection through two inversions and a union is intersection at finite times. -/
theorem intersectWith_spec (ranges other : List (Range T)) (h : Ordered ranges)
    (hoth : Ordered other) :
    Ordered (intersectWith ranges other) ∧ ∀ t, t < ⊤ → (t ∈ times (intersectWith ranges other) ↔
        t ∈ times ranges ∧ t ∈ times other) := by
  obtain ⟨hself, hselfTimes⟩ := invert_spec ranges h
  obtain ⟨hinv, hinvTimes⟩ := invert_spec other hoth
  obtain ⟨hunion, hunionTimes⟩ := unionWith_spec (invert ranges) (invert other) hself hinv.1
  obtain ⟨hord, htimes⟩ := invert_spec _ hunion
  refine ⟨hord, fun t ht => ?_⟩
  rw [intersectWith, htimes t ht, hunionTimes, Set.mem_union, hselfTimes t ht, hinvTimes t ht]
  tauto

inductive History (T : Type*) [LinearOrder T] where
  | empty : History T
  | add (history : History T) (start stop : T) (hle : start ≤ stop) : History T
  | unionWith (history other : History T) : History T
  | intersectWith (history other : History T) : History T
  | invert (history : History T) : History T

namespace History

def ranges : History T → List (Range T)
  | empty => []
  | add history start stop _ => PlatformTimeRanges.add history.ranges start stop
  | unionWith history other => PlatformTimeRanges.unionWith history.ranges other.ranges
  | intersectWith history other => PlatformTimeRanges.intersectWith history.ranges other.ranges
  | invert history => PlatformTimeRanges.invert history.ranges

def expected : History T → Set T
  | empty => ∅
  | add history start stop _ => history.expected ∪ Set.Ico start stop
  | unionWith history other => history.expected ∪ other.expected
  | intersectWith history other => history.expected ∩ other.expected
  | invert history => history.expectedᶜ

end History

/-- After every history the ranges are ordered and strictly separated, and each
finite time is in them exactly when set algebra puts it there. -/
theorem history_ordered_and_expected (history : History T) : Ordered history.ranges ∧
      ∀ t, ⊥ < t → t < ⊤ → (t ∈ times history.ranges ↔ t ∈ history.expected) := by
  induction history with
  | empty => exact ⟨ordered_nil, fun t _ _ => by simp [History.ranges, History.expected]⟩
  | add history start stop hle ih =>
    obtain ⟨hord, htimes⟩ := add_spec history.ranges start stop ih.1 hle
    refine ⟨hord, fun t hbot htop => ?_⟩
    rw [History.ranges, htimes, History.expected, Set.mem_union, Set.mem_union, ih.2 t hbot htop]
  | unionWith history other ih ihOther =>
    obtain ⟨hord, htimes⟩ := unionWith_spec history.ranges other.ranges ih.1 ihOther.1.1
    refine ⟨hord, fun t hbot htop => ?_⟩
    rw [History.ranges, htimes, History.expected, Set.mem_union, Set.mem_union,
      ih.2 t hbot htop, ihOther.2 t hbot htop]
  | intersectWith history other ih ihOther =>
    obtain ⟨hord, htimes⟩ := intersectWith_spec history.ranges other.ranges ih.1 ihOther.1
    refine ⟨hord, fun t hbot htop => ?_⟩
    rw [History.ranges, htimes t htop, History.expected, Set.mem_inter_iff,
      ih.2 t hbot htop, ihOther.2 t hbot htop]
  | invert history ih =>
    obtain ⟨hord, htimes⟩ := invert_spec history.ranges ih.1
    refine ⟨hord, fun t hbot htop => ?_⟩
    rw [History.ranges, htimes t htop, History.expected, Set.mem_compl_iff, ih.2 t hbot htop]

/-- Two touching ranges on a seven-point time line merge; cutting the inverted
ranges out of another range leaves the expected finite times. -/
theorem history_ordered_and_expected_touching :
    let history : History (Fin 7) := .intersectWith
      (.invert (.add (.add .empty 1 2 (by decide)) 2 3 (by decide)))
      (.add .empty 2 5 (by decide))
    history.ranges = [⟨3, 5⟩] ∧ Ordered history.ranges ∧
      ((4 : Fin 7) ∈ times history.ranges ↔ 4 ∈ history.expected) := by
  refine ⟨by decide, (history_ordered_and_expected _).1, ?_⟩
  exact (history_ordered_and_expected _).2 4 (by decide) (by decide)

end Infinities

end WebKit.PlatformTimeRanges
