import WebKit.Foundation.Alignment
import WebKit.Foundation.Tilings

/-!
The free ranges of large objects. A range knows how many bytes at its start are backed by physical
pages. A range that is added is joined with the ranges it touches, and ranges are taken out of the
vector by swapping them with the last one.
-/

namespace WebKit.BMalloc

open WebKit.Alignment List Tilings

structure XLargeRange extends Span where
  physicalSize : ℕ
deriving DecidableEq

namespace XLargeRange

def canMerge (a b : XLargeRange) : Bool := a.stop = b.start || b.stop = a.start

def merge (a b : XLargeRange) : XLargeRange :=
  let left := if b.start < a.start then b else a
  if left.size = left.physicalSize then
    ⟨⟨left.start, a.size + b.size⟩, a.physicalSize + b.physicalSize⟩
  else ⟨⟨left.start, a.size + b.size⟩, left.physicalSize⟩

def split (range : XLargeRange) (size : ℕ) : XLargeRange × XLargeRange :=
  if size ≤ range.physicalSize then
    (⟨⟨range.start, size⟩, size⟩,
      ⟨⟨range.start + size, range.size - size⟩, range.physicalSize - size⟩)
  else (⟨⟨range.start, size⟩, range.physicalSize⟩, ⟨⟨range.start + size, range.size - size⟩, 0⟩)

end XLargeRange

def popAt {α : Type*} (elements : List α) (i : ℕ) : List α :=
  match elements.getLast? with
  | none => []
  | some last => (elements.set i last).dropLast

theorem length_popAt {α : Type*} {elements : List α} {i : ℕ} (hi : i < elements.length) :
    (popAt elements i).length = elements.length - 1 := by
  unfold popAt
  cases hlast : elements.getLast? with
  | none =>
    rw [getLast?_eq_none_iff.mp hlast] at hi
    exact absurd hi (Nat.not_lt_zero i)
  | some last => simp only [length_dropLast, length_set]

namespace XLargeMap

def test (x alignmentMask : ℕ) : Bool := x &&& alignmentMask ≠ 0

def alignmentFits (alignment size : ℕ) (range : XLargeRange) : Bool :=
  if test range.start (alignment - 1) then
    let aligned := roundUp 64 alignment range.start
    let alignedEnd := (aligned + size) % 2 ^ 64
    !(aligned < range.start) && !(alignedEnd < aligned) && !(range.stop < alignedEnd)
  else true

def consider (alignment size : ℕ) (candidate : Option (XLargeRange × ℕ)) (it : XLargeRange × ℕ) :
    Option (XLargeRange × ℕ) :=
  if it.1.size < size then candidate
  else if candidate.any fun found => found.1.start < it.1.start then candidate
  else if alignmentFits alignment size it.1 then some it
  else candidate

variable (free : List XLargeRange)

def remove (alignment size : ℕ) : Option (XLargeRange × List XLargeRange) :=
  (free.zipIdx.foldl (consider alignment size) none).map fun (range, i) => (range, popAt free i)

/-- The loop that joins a range with those it can be merged with. After a merge the same position is
looked at again, where the last range is now. -/
def mergeLoop (merged : XLargeRange) (free : List XLargeRange) (i : ℕ) :
    XLargeRange × List XLargeRange :=
  if h : i < free.length then
    if merged.canMerge free[i] then mergeLoop (merged.merge free[i]) (popAt free i) i
    else mergeLoop merged free (i + 1)
  else (merged, free)
termination_by free.length - i
decreasing_by
  · rw [length_popAt h]
    omega
  · omega

def add (range : XLargeRange) : List XLargeRange :=
  let (merged, free) := mergeLoop range free 0
  free ++ [merged]

def removePhysical : Option (XLargeRange × List XLargeRange) :=
  (free.findIdx? fun range => range.physicalSize ≠ 0).bind fun i =>
    free[i]?.map fun range => (range, popAt free i)

end XLargeMap

section Popping

variable {α : Type*} {elements : List α} {i : ℕ}

theorem popAt_append_singleton (init : List α) (last : α) (i : ℕ) :
    popAt (init ++ [last]) i = init.set i last := by
  have hlast : (init ++ [last]).getLast? = some last := getLast?_concat
  unfold popAt
  rw [hlast]
  dsimp only
  by_cases hi : i < init.length
  · rw [set_append_left _ _ hi, dropLast_concat]
  · rw [set_append_right _ _ (not_lt.mp hi), set_eq_of_length_le (not_lt.mp hi)]
    cases hsub : i - init.length with
    | zero => rw [set_cons_zero, dropLast_concat]
    | succ m => rw [set_cons_succ, set_nil, dropLast_concat]

/-- The element that is taken out and those that stay. -/
theorem perm_cons_popAt (hi : i < elements.length) : elements.Perm (elements[i] :: popAt elements i) := by
  obtain ⟨init, last, rfl⟩ := eq_nil_or_concat' elements |>.resolve_left (by
    rintro rfl
    exact Nat.not_lt_zero _ hi)
  rw [popAt_append_singleton]
  by_cases hlt : i < init.length
  · have hset : (init.set i last).Perm (last :: init.eraseIdx i) := by
      exact set_perm_cons_eraseIdx hlt last
    have hinit : init.Perm (init[i] :: init.eraseIdx i) := (getElem_cons_eraseIdx_perm hlt).symm
    rw [getElem_append_left hlt]
    exact (perm_append_singleton last init).trans <| (hinit.cons last).trans <|
      (List.Perm.swap _ _ _).trans (hset.symm.cons _)
  · have heq : i = init.length := by
      rw [length_append, length_singleton] at hi
      omega
    subst heq
    rw [set_eq_of_length_le le_rfl, getElem_concat_length rfl]
    exact perm_append_singleton last init

theorem getElem?_popAt {m : ℕ} (hi : i < elements.length) (hm : m < i) :
    (popAt elements i)[m]? = elements[m]? := by
  obtain ⟨init, last, rfl⟩ := eq_nil_or_concat' elements |>.resolve_left (by
    rintro rfl
    exact Nat.not_lt_zero _ hi)
  rw [length_append, length_singleton] at hi
  rw [popAt_append_singleton, getElem?_set_ne (by omega), getElem?_append_left (by omega)]

end Popping

def spans (ranges : List XLargeRange) : List Span := ranges.map XLargeRange.toSpan

theorem coverage_spans_of_perm {ranges rest : List XLargeRange} {range : XLargeRange}
    (h : ranges.Perm (range :: rest)) (a : ℕ) :
    coverage (spans ranges) a = (if range.Contains a then 1 else 0) + coverage (spans rest) a :=
  (coverage_perm (h.map XLargeRange.toSpan) a).trans (coverage_cons _ _ _)

structure Backed (pageSize : ℕ) (committed : ℕ → Bool) (range : XLargeRange) : Prop where
  physicalSize_le : range.physicalSize ≤ range.size
  committed_of_lt : ∀ a, range.start ≤ a → a < range.start + range.physicalSize →
    committed (a / pageSize) = true

namespace XLargeRange

variable {a b : XLargeRange} {pageSize : ℕ} {committed : ℕ → Bool}

section

variable (h : a.canMerge b) (ha : 0 < a.size) (hb : 0 < b.size)

include h ha hb

/-- Two ranges that touch, the left one first. -/
theorem merge_cases :
    ∃ left right, (left = a ∧ right = b ∨ left = b ∧ right = a) ∧ left.stop = right.start ∧
      a.merge b = ⟨⟨left.start, left.size + right.size⟩,
        if left.size = left.physicalSize then left.physicalSize + right.physicalSize
        else left.physicalSize⟩ := by
  simp only [canMerge, Bool.or_eq_true, decide_eq_true_eq] at h
  rcases h with hstop | hstop
  · have hleft : ¬b.start < a.start := by
      simp only [Span.stop] at hstop
      omega
    refine ⟨a, b, .inl ⟨rfl, rfl⟩, hstop, ?_⟩
    simp only [merge, if_neg hleft]
    split_ifs <;> rfl
  · have hleft : b.start < a.start := by
      simp only [Span.stop] at hstop
      omega
    refine ⟨b, a, .inr ⟨rfl, rfl⟩, hstop, ?_⟩
    simp only [merge, if_pos hleft, add_comm a.size, add_comm a.physicalSize]
    split_ifs <;> rfl

theorem size_merge_pos : 0 < (a.merge b).size := by
  obtain ⟨left, right, hsides, -, hmerge⟩ := merge_cases h ha hb
  rw [hmerge]
  rcases hsides with ⟨rfl, rfl⟩ | ⟨rfl, rfl⟩
  · exact Nat.add_pos_left ha _
  · exact Nat.add_pos_left hb _

theorem contains_merge (x : ℕ) : (if (a.merge b).Contains x then 1 else 0) =
      (if a.Contains x then 1 else 0) + (if b.Contains x then 1 else 0) := by
  obtain ⟨left, right, hsides, hstop, hmerge⟩ := merge_cases h ha hb
  have hjoined : (if (a.merge b).Contains x then 1 else 0) =
      (if left.Contains x then 1 else 0) + (if right.Contains x then 1 else 0) := by
    rw [hmerge, contains_extendRight left.toSpan, hstop]
  rcases hsides with ⟨rfl, rfl⟩ | ⟨rfl, rfl⟩
  · exact hjoined
  · rw [hjoined, add_comm]

theorem gap_merge {other : Span}
    (hgapA : Gap a.toSpan other) (hgapB : Gap b.toSpan other) : Gap (a.merge b).toSpan other := by
  obtain ⟨left, right, hsides, hstop, hmerge⟩ := merge_cases h ha hb
  rw [hmerge]
  rcases hsides with ⟨rfl, rfl⟩ | ⟨rfl, rfl⟩
  all_goals
    simp only [Gap, Span.stop] at *
    omega

theorem backed_merge
    (hbackedA : Backed pageSize committed a) (hbackedB : Backed pageSize committed b) :
    Backed pageSize committed (a.merge b) := by
  obtain ⟨left, right, hsides, hstop, hmerge⟩ := merge_cases h ha hb
  obtain ⟨hleft, hright⟩ : Backed pageSize committed left ∧ Backed pageSize committed right := by
    rcases hsides with ⟨rfl, rfl⟩ | ⟨rfl, rfl⟩
    · exact ⟨hbackedA, hbackedB⟩
    · exact ⟨hbackedB, hbackedA⟩
  have hsizeLeft := hleft.physicalSize_le
  have hsizeRight := hright.physicalSize_le
  rw [hmerge]
  split_ifs with hfull
  · refine ⟨by simp only; omega, fun x hlow hhigh => ?_⟩
    simp only at hlow hhigh
    by_cases hx : x < left.stop
    · exact hleft.committed_of_lt x hlow (by rw [← hfull]; exact hx)
    · refine hright.committed_of_lt x (by omega) ?_
      simp only [Span.stop] at hstop
      omega
  · exact ⟨by simp only; omega, hleft.committed_of_lt⟩

end

theorem split_fst (range : XLargeRange) (size : ℕ) :
    (range.split size).1.toSpan = ⟨range.start, size⟩ := by
  unfold split
  split_ifs <;> rfl

theorem split_snd (range : XLargeRange) (size : ℕ) :
    (range.split size).2.toSpan = ⟨range.start + size, range.size - size⟩ := by
  unfold split
  split_ifs <;> rfl

/-- Both parts of a range are backed as the range is. -/
theorem backed_split {range : XLargeRange} (h : Backed pageSize committed range) (size : ℕ) :
    Backed pageSize committed (range.split size).1 ∧ Backed pageSize committed (range.split size).2 := by
  have hle := h.physicalSize_le
  unfold split
  split_ifs with hphys
  · refine ⟨⟨le_rfl, fun x hlow hhigh => ?_⟩, ⟨Nat.sub_le_sub_right hle size, fun x hlow hhigh => ?_⟩⟩
    · exact h.committed_of_lt x hlow (hhigh.trans_le (Nat.add_le_add_left hphys _))
    · simp only at hlow hhigh
      exact h.committed_of_lt x (by omega) (by omega)
  · refine ⟨⟨(not_le.mp hphys).le, h.committed_of_lt⟩, ⟨Nat.zero_le _, fun x hlow hhigh => ?_⟩⟩
    exact absurd hhigh (not_lt.mpr hlow)

end XLargeRange

namespace XLargeMap

variable {merged range : XLargeRange} {free : List XLargeRange} {i pageSize alignment size : ℕ}
  {committed : ℕ → Bool}

structure WellFormed (pageSize : ℕ) (committed : ℕ → Bool) (free : List XLargeRange) : Prop where
  coalesced : Coalesced (spans free)
  backed : ∀ range ∈ free, Backed pageSize committed range

theorem WellFormed.perm {free' : List XLargeRange} (h : WellFormed pageSize committed free)
    (hperm : free.Perm free') : WellFormed pageSize committed free' :=
  ⟨h.coalesced.perm (hperm.map _), fun range hmem => h.backed range (hperm.mem_iff.mpr hmem)⟩

theorem WellFormed.tail (h : WellFormed pageSize committed (range :: free)) :
    WellFormed pageSize committed free :=
  ⟨h.coalesced.tail, fun other hmem => h.backed other (mem_cons_of_mem _ hmem)⟩

/-- The loop ends with a range that touches none of the others. -/
theorem mergeLoop_spec (hfree : WellFormed pageSize committed free) (hpos : 0 < merged.size)
    (hbacked : Backed pageSize committed merged)
    (hcover : ∀ a, coverage (merged.toSpan :: spans free) a ≤ 1)
    (hgap : ∀ m < i, ∀ other, free[m]? = some other → Gap merged.toSpan other.toSpan) :
    WellFormed pageSize committed ((mergeLoop merged free i).1 :: (mergeLoop merged free i).2) ∧
      ∀ a, coverage (spans ((mergeLoop merged free i).1 :: (mergeLoop merged free i).2)) a =
        coverage (spans (merged :: free)) a := by
  induction merged, free, i using mergeLoop.induct with
  | case1 merged free i hi hmerge ih =>
    have hperm := perm_cons_popAt hi
    have hwf := hfree.perm hperm
    have hoth : 0 < free[i].size := hwf.coalesced.head_pos
    have hcover' (a : ℕ) : coverage ((merged.merge free[i]).toSpan :: spans (popAt free i)) a =
        coverage (merged.toSpan :: spans free) a := by
      rw [coverage_cons, coverage_cons, XLargeRange.contains_merge hmerge hpos hoth,
        coverage_spans_of_perm hperm, add_assoc]
    rw [mergeLoop, dif_pos hi, if_pos hmerge]
    obtain ⟨hres, hresultCoverage⟩ := ih hwf.tail
      (XLargeRange.size_merge_pos hmerge hpos hoth)
      (XLargeRange.backed_merge hmerge hpos hoth hbacked (hfree.backed _ (getElem_mem hi)))
      (fun a => (hcover' a).trans_le (hcover a))
      (fun m hm other hget => by
        have hget' : free[m]? = some other := (getElem?_popAt hi hm).symm.trans hget
        have hmem : other ∈ popAt free i := mem_of_getElem? hget
        exact XLargeRange.gap_merge hmerge hpos hoth (hgap m hm other hget')
          (hwf.coalesced.head_gap (mem_map_of_mem hmem)))
    exact ⟨hres, fun a => (hresultCoverage a).trans (hcover' a)⟩
  | case2 merged free i hi hmerge ih =>
    rw [mergeLoop, dif_pos hi, if_neg hmerge]
    refine ih hfree hpos hbacked hcover fun m hm other hget => ?_
    rcases Nat.lt_succ_iff_lt_or_eq.mp hm with hlt | rfl
    · exact hgap m hlt other hget
    · rw [getElem?_eq_getElem hi] at hget
      cases hget
      have hmem : free[m].toSpan ∈ spans free := mem_map_of_mem (getElem_mem hi)
      have hside := ((pairwise_cons.mp (pairwise_apart_iff.mpr hcover)).1 _ hmem).le_or_le hpos
        (hfree.coalesced.size_pos _ hmem)
      simp only [XLargeRange.canMerge, Bool.or_eq_true, decide_eq_true_eq] at hmerge
      simp only [Gap]
      omega
  | case3 merged free i hi =>
    rw [mergeLoop, dif_neg hi]
    refine ⟨⟨hfree.coalesced.cons hpos fun other hmem _ => ?_,
      forall_mem_cons.mpr ⟨hbacked, hfree.backed⟩⟩, fun a => rfl⟩
    obtain ⟨range, hrng, rfl⟩ := mem_map.mp hmem
    obtain ⟨m, hm⟩ := mem_iff_getElem?.mp hrng
    exact hgap m ((List.getElem?_eq_some_iff.mp hm).1.trans_le (not_lt.mp hi)) range hm

/-- An added range is joined with the ranges that it touches. -/
theorem add_spec (hfree : WellFormed pageSize committed free) (hpos : 0 < range.size)
    (hbacked : Backed pageSize committed range)
    (hcover : ∀ a, coverage (range.toSpan :: spans free) a ≤ 1) :
    WellFormed pageSize committed (add free range) ∧ ∀ a, coverage (spans (add free range)) a =
        (if range.Contains a then 1 else 0) + coverage (spans free) a := by
  obtain ⟨hwf, hres⟩ := mergeLoop_spec hfree hpos hbacked hcover
    fun m hm => absurd hm (Nat.not_lt_zero m)
  have hperm : (add free range).Perm ((mergeLoop range free 0).1 :: (mergeLoop range free 0).2) :=
    perm_append_singleton _ _
  refine ⟨hwf.perm hperm.symm, fun a => ?_⟩
  rw [coverage_spans_of_perm hperm, ← coverage_cons]
  exact (hres a).trans (coverage_cons _ _ _)

def Fits (alignment size : ℕ) (range : XLargeRange) : Prop :=
  size ≤ range.size ∧ alignmentFits alignment size range = true

/-- The search goes through all ranges and keeps one that fits. -/
theorem foldl_consider_spec (alignment size : ℕ) (entries : List (XLargeRange × ℕ))
    (candidate : Option (XLargeRange × ℕ)) :
    (∃ entry, entries.foldl (consider alignment size) candidate = some entry ∧
        (candidate = some entry ∨ entry ∈ entries ∧ Fits alignment size entry.1)) ∨
      (entries.foldl (consider alignment size) candidate = none ∧ candidate = none ∧
        ∀ entry ∈ entries, ¬Fits alignment size entry.1) := by
  induction entries generalizing candidate with
  | nil =>
    cases candidate with
    | none => exact .inr ⟨rfl, rfl, nofun⟩
    | some entry => exact .inl ⟨entry, rfl, .inl rfl⟩
  | cons it entries ih =>
    have hturn : consider alignment size candidate it = candidate ∧
          (candidate = none → ¬Fits alignment size it.1) ∨
        consider alignment size candidate it = some it ∧ Fits alignment size it.1 := by
      unfold consider
      split_ifs with hsize hlow hfits
      · exact .inl ⟨rfl, fun _ h => absurd h.1 (not_le.mpr hsize)⟩
      · refine .inl ⟨rfl, fun hnone => ?_⟩
        rw [hnone] at hlow
        exact absurd hlow nofun
      · exact .inr ⟨rfl, not_lt.mp hsize, hfits⟩
      · exact .inl ⟨rfl, fun _ h => hfits h.2⟩
    rw [foldl_cons]
    rcases ih (consider alignment size candidate it) with
      ⟨entry, hfold, hent⟩ | ⟨hfold, hnone, hrest⟩
    · refine .inl ⟨entry, hfold, ?_⟩
      rcases hent with hent | ⟨hmem, hfits⟩
      · rcases hturn with ⟨hkeep, -⟩ | ⟨hnew, hfits⟩
        · exact .inl (hkeep.symm.trans hent)
        · cases hnew.symm.trans hent
          exact .inr ⟨mem_cons_self, hfits⟩
      · exact .inr ⟨mem_cons_of_mem _ hmem, hfits⟩
    · rcases hturn with ⟨hkeep, hfst⟩ | ⟨hnew, -⟩
      · have hcandidate := hkeep.symm.trans hnone
        exact .inr ⟨hfold, hcandidate, forall_mem_cons.mpr ⟨hfst hcandidate, hrest⟩⟩
      · exact absurd (hnew.symm.trans hnone) nofun

/-- A range that fits is taken out when there is one. -/
theorem remove_spec (free : List XLargeRange) (alignment size : ℕ) :
    (∃ range rest, remove free alignment size = some (range, rest) ∧ free.Perm (range :: rest) ∧
        Fits alignment size range) ∨
      (remove free alignment size = none ∧ ∀ range ∈ free, ¬Fits alignment size range) := by
  rcases foldl_consider_spec alignment size free.zipIdx none with
    ⟨⟨range, i⟩, hfold, hent⟩ | ⟨hfold, -, hnone⟩
  · obtain ⟨hmem, hfits⟩ := hent.resolve_left nofun
    obtain ⟨hi, hrng⟩ := List.getElem?_eq_some_iff.mp (mem_zipIdx_iff_getElem?.mp hmem)
    refine .inl ⟨range, popAt free i, ?_, ?_, hfits⟩
    · rw [remove, hfold]
      rfl
    · have hperm := perm_cons_popAt hi
      rwa [hrng] at hperm
  · refine .inr ⟨by rw [remove, hfold]; rfl, fun range hmem hfits => ?_⟩
    obtain ⟨i, hi⟩ := mem_iff_getElem?.mp hmem
    exact hnone (range, i) (mem_zipIdx_iff_getElem?.mpr hi) hfits

theorem removePhysical_perm {rest : List XLargeRange} (h : removePhysical free = some (range, rest)) :
    free.Perm (range :: rest) := by
  obtain ⟨i, -, hmap⟩ := Option.bind_eq_some_iff.mp h
  obtain ⟨found, hfound, heq⟩ := Option.map_eq_some_iff.mp hmap
  cases heq
  obtain ⟨hi, rfl⟩ := List.getElem?_eq_some_iff.mp hfound
  exact perm_cons_popAt hi

def alignedStart (alignment start : ℕ) : ℕ :=
  if test start (alignment - 1) then roundUp 64 alignment start else start

theorem test_two_pow (m x : ℕ) : test x (2 ^ m - 1) ↔ ¬2 ^ m ∣ x := by
  rw [test, decide_eq_true_eq, Nat.and_two_pow_sub_one_eq_mod, Nat.dvd_iff_mod_eq_zero]

section Aligned

variable {m : ℕ}

theorem dvd_alignedStart (hm : m < 64) (x : ℕ) : 2 ^ m ∣ alignedStart (2 ^ m) x := by
  unfold alignedStart
  split_ifs with htest
  · exact dvd_roundUp hm.le
  · rw [test_two_pow, not_not] at htest
    exact htest

/-- A range that fits has room for the size behind its first aligned address. -/
theorem Fits.alignedStart_le (hstop : range.stop < 2 ^ 64) (h : Fits (2 ^ m) size range) :
    range.start ≤ alignedStart (2 ^ m) range.start ∧
      alignedStart (2 ^ m) range.start + size ≤ range.stop := by
  obtain ⟨hsize, hfits⟩ := h
  unfold alignmentFits at hfits
  unfold alignedStart
  split_ifs at hfits ⊢ with htest
  · simp only [Bool.and_eq_true, Bool.not_eq_true', decide_eq_false_iff_not, not_lt] at hfits
    obtain ⟨⟨hlow, hwrap⟩, hend⟩ := hfits
    simp only [Span.stop] at *
    exact ⟨hlow, by omega⟩
  · exact ⟨le_rfl, Nat.add_le_add_left hsize _⟩

/-- A range with an aligned address that has room for the size fits. -/
theorem fits_of_aligned (hm : m < 64) (hstop : range.stop < 2 ^ 64) {x : ℕ} (hx : 2 ^ m ∣ x)
    (hlow : range.start ≤ x) (hroom : x + size ≤ range.stop) : Fits (2 ^ m) size range := by
  refine ⟨?_, ?_⟩
  · simp only [Span.stop] at hroom
    omega
  · unfold alignmentFits
    split_ifs with htest
    · rw [test_two_pow] at htest
      have hroom := Nat.le_of_dvd (Nat.sub_pos_of_lt (show x < 2 ^ 64 by omega))
        (Nat.dvd_sub (pow_dvd_pow 2 hm.le) hx)
      have hsum : range.start + (2 ^ m - 1) < 2 ^ 64 := by omega
      have hle := le_roundUp hm.le hsum
      have hround := roundUp_le_of_dvd hm.le hsum hlow hx
      simp only [Bool.and_eq_true, Bool.not_eq_true', decide_eq_false_iff_not, not_lt]
      rw [Nat.mod_eq_of_lt (by omega)]
      omega
    · rfl

end Aligned

end XLargeMap

end WebKit.BMalloc
