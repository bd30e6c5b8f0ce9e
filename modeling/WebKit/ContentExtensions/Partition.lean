import Mathlib

/-!
Partitions that are refined in place. The elements are kept in an order in which each set is an
interval; the elements of a set that are marked are swapped to its beginning, and a refinement makes the
smaller one of the two parts a new set.
-/

namespace WebKit.ContentExtensions

open List

structure SetDescriptor where
  start : ℕ
  size : ℕ
  markedCount : ℕ

namespace SetDescriptor

def indexAfterMarkedElements (set : SetDescriptor) : ℕ := set.start + set.markedCount

def stop (set : SetDescriptor) : ℕ := set.start + set.size

end SetDescriptor

structure Partition where
  sets : List SetDescriptor
  partitionedElements : List ℕ
  elementPositionInPartitionedNodes : List ℕ
  elementToSetMap : List ℕ
  setsMarkedInCurrentGeneration : List ℕ

namespace Partition

def empty : Partition := ⟨[], [], [], [], []⟩

def initialized (size : ℕ) : Partition :=
  if size = 0 then empty
  else ⟨[⟨0, size, 0⟩], range size, range size, replicate size 0, []⟩

variable (partition : Partition)

def element (position : ℕ) : ℕ := partition.partitionedElements.getD position 0

def position (element : ℕ) : ℕ :=
  partition.elementPositionInPartitionedNodes.getD element 0

def setIndex (element : ℕ) : ℕ := partition.elementToSetMap.getD element 0

variable (setIndex : ℕ)

def descriptor : SetDescriptor :=
  partition.sets.getD setIndex ⟨0, 0, 0⟩

def firstElementInSet : ℕ :=
  partition.element (partition.descriptor setIndex).start

def elementsOfSet : List ℕ :=
  let set := partition.descriptor setIndex
  (range' set.start set.size).map partition.element

def markElementInCurrentGeneration (elementIndex : ℕ) : Partition :=
  let setIndex := partition.setIndex elementIndex
  let set := partition.descriptor setIndex
  let elementPosition := partition.position elementIndex
  let firstUnmarkedPosition := set.indexAfterMarkedElements
  let firstUnmarkedElement := partition.element firstUnmarkedPosition
  { partition with
    partitionedElements := (partition.partitionedElements.set firstUnmarkedPosition elementIndex).set
      elementPosition firstUnmarkedElement
    elementPositionInPartitionedNodes := (partition.elementPositionInPartitionedNodes.set elementIndex
      firstUnmarkedPosition).set firstUnmarkedElement elementPosition
    setsMarkedInCurrentGeneration :=
      if set.markedCount = 0 then partition.setsMarkedInCurrentGeneration ++ [setIndex]
      else partition.setsMarkedInCurrentGeneration
    sets := partition.sets.set setIndex { set with markedCount := set.markedCount + 1 } }

def newSet (set : SetDescriptor) : SetDescriptor :=
  if set.markedCount * 2 ≤ set.size then ⟨set.start, set.markedCount, 0⟩
  else ⟨set.start + set.markedCount, set.size - set.markedCount, 0⟩

def oldSet (set : SetDescriptor) : SetDescriptor :=
  if set.markedCount * 2 ≤ set.size then
    ⟨set.start + set.markedCount, set.size - set.markedCount, 0⟩
  else ⟨set.start, set.size - (set.size - set.markedCount), 0⟩

def refineSet : Partition × Option ℕ :=
  let set := partition.descriptor setIndex
  if set.markedCount = set.size then
    ({ partition with sets := partition.sets.set setIndex { set with markedCount := 0 } }, none)
  else
    let newSetIndex := partition.sets.length
    ({ partition with
        sets := partition.sets.set setIndex (oldSet set) ++ [newSet set]
        elementToSetMap := (range' (newSet set).start (newSet set).size).foldl
          (fun map i => map.set (partition.element i) newSetIndex) partition.elementToSetMap },
      some newSetIndex)

variable {σ : Type*} (function : Partition → ℕ → σ → σ)

def refineStep (result : Partition × σ) (setIndex : ℕ) : Partition × σ :=
  match result.1.refineSet setIndex with
  | (partition, none) => (partition, result.2)
  | (partition, some newSetIndex) => (partition, function partition newSetIndex result.2)

def refineGeneration (partition : Partition) (state : σ) : Partition × σ :=
  let result := partition.setsMarkedInCurrentGeneration.foldl (refineStep function) (partition, state)
  ({ result.1 with setsMarkedInCurrentGeneration := [] }, result.2)

def Marked (element : ℕ) : Prop :=
  partition.position element <
    (partition.descriptor (partition.setIndex element)).indexAfterMarkedElements

structure Valid (partition : Partition) (size : ℕ) : Prop where
  length_elements : partition.partitionedElements.length = size
  length_positions : partition.elementPositionInPartitionedNodes.length = size
  length_map : partition.elementToSetMap.length = size
  position_lt : ∀ {e}, e < size → partition.position e < size
  element_lt : ∀ {i}, i < size → partition.element i < size
  element_position : ∀ {e}, e < size → partition.element (partition.position e) = e
  position_element : ∀ {i}, i < size → partition.position (partition.element i) = i
  setIndex_lt : ∀ {e}, e < size → partition.setIndex e < partition.sets.length
  setIndex_eq_iff : ∀ {e s}, e < size → s < partition.sets.length → (partition.setIndex e = s ↔
    (partition.descriptor s).start ≤ partition.position e ∧
      partition.position e < (partition.descriptor s).stop)
  stop_le : ∀ {s}, s < partition.sets.length → (partition.descriptor s).stop ≤ size
  size_pos : ∀ {s}, s < partition.sets.length → 0 < (partition.descriptor s).size
  markedCount_le : ∀ {s}, s < partition.sets.length →
    (partition.descriptor s).markedCount ≤ (partition.descriptor s).size

structure Tracked (partition : Partition) : Prop where
  nodup : partition.setsMarkedInCurrentGeneration.Nodup
  mem_iff : ∀ {s}, s ∈ partition.setsMarkedInCurrentGeneration ↔
    s < partition.sets.length ∧ 0 < (partition.descriptor s).markedCount

theorem getD_set {α : Type*} (l : List α) (i j : ℕ) (a d : α) :
    (l.set i a).getD j d = if i = j ∧ i < l.length then a else l.getD j d := by
  rw [getD_eq_getElem?_getD, getD_eq_getElem?_getD, getElem?_set]
  by_cases hij : i = j
  · by_cases hlt : i < l.length
    · simp [hij, hij ▸ hlt]
    · simp [hij, hij ▸ hlt]
  · simp [hij]

variable {p : Partition} {size e i s x : ℕ}

/-- The interval of the set of an element. -/
theorem Valid.position_mem (h : p.Valid size) (he : e < size) :
    (p.descriptor (p.setIndex e)).start ≤ p.position e ∧
      p.position e < (p.descriptor (p.setIndex e)).stop :=
  (h.setIndex_eq_iff he (h.setIndex_lt he)).mp rfl

def firstUnmarked (partition : Partition) (element : ℕ) : ℕ :=
  (partition.descriptor (partition.setIndex element)).indexAfterMarkedElements

theorem Valid.mem_interval_iff (h : p.Valid size) (hi : i < size) (hs : s < p.sets.length) :
    (p.descriptor s).start ≤ i ∧ i < (p.descriptor s).stop ↔ p.setIndex (p.element i) = s := by
  rw [h.setIndex_eq_iff (h.element_lt hi) hs, h.position_element hi]

@[simp]
theorem setIndex_mark : (p.markElementInCurrentGeneration e).setIndex x =
    p.setIndex x := rfl

@[simp]
theorem length_sets_mark : (p.markElementInCurrentGeneration e).sets.length =
    p.sets.length := length_set

section SetMarkedCount

variable {other : Partition} {count : ℕ} (hs : s < p.sets.length)
  (hsets : other.sets = p.sets.set s { p.descriptor s with markedCount := count })

include hs hsets

/-- The descriptors after the number of marked elements of one set changes. -/
theorem descriptor_setMarkedCount (t : ℕ) : other.descriptor t =
    if s = t then { p.descriptor t with markedCount := count } else p.descriptor t := by
  simp only [descriptor, hsets, getD_set, hs, and_true]
  by_cases heq : s = t
  · rw [if_pos heq, if_pos heq, heq]
  · rw [if_neg heq, if_neg heq]

theorem start_setMarkedCount (t : ℕ) : (other.descriptor t).start = (p.descriptor t).start := by
  rw [descriptor_setMarkedCount hs hsets]
  split_ifs <;> rfl

theorem size_setMarkedCount (t : ℕ) : (other.descriptor t).size = (p.descriptor t).size := by
  rw [descriptor_setMarkedCount hs hsets]
  split_ifs
  · rfl
  · rfl

end SetMarkedCount

theorem descriptor_mark (hs : p.setIndex e < p.sets.length) :
    (p.markElementInCurrentGeneration e).descriptor s =
      if p.setIndex e = s then { p.descriptor s with
        markedCount := (p.descriptor (p.setIndex e)).markedCount + 1 }
      else p.descriptor s :=
  descriptor_setMarkedCount hs rfl s

theorem swap_lt {a b : ℕ} (ha : a < size) (hb : b < size) (hi : i < size) :
    Equiv.swap a b i < size := by
  rw [Equiv.swap_apply_def]
  split_ifs
  · exact hb
  · exact ha
  · exact hi

section Mark

variable (h : p.Valid size) (he : e < size) (hunmarked : ¬ p.Marked e)

include h he hunmarked

/-- An element that is not marked leaves room for one more marked element. -/
theorem Valid.firstUnmarked_mem : p.firstUnmarked e ≤ p.position e ∧ p.firstUnmarked e < size := by
  have hle := Nat.not_lt.mp hunmarked
  exact ⟨hle, hle.trans_lt (h.position_lt he)⟩

theorem Valid.element_mark : (p.markElementInCurrentGeneration e).element i =
    p.element (Equiv.swap (p.firstUnmarked e) (p.position e) i) := by
  have hfst := (h.firstUnmarked_mem he hunmarked).2
  unfold firstUnmarked at hfst ⊢
  have hposn := h.position_lt he
  simp only [markElementInCurrentGeneration, element, getD_set, length_set, h.length_elements,
    hfst, hposn, and_true, Equiv.swap_apply_def]
  by_cases hi : p.position e = i
  · subst hi
    by_cases heq : p.position e = (p.descriptor (p.setIndex e)).indexAfterMarkedElements
    · simp [← heq]
    · simp [heq]
  · rw [if_neg hi, if_neg (Ne.symm hi)]
    by_cases hf : (p.descriptor (p.setIndex e)).indexAfterMarkedElements = i
    · rw [if_pos hf, if_pos hf.symm]
      exact (h.element_position he).symm
    · rw [if_neg hf, if_neg (Ne.symm hf)]

theorem Valid.position_mark (hx : x < size) : (p.markElementInCurrentGeneration e).position x =
      Equiv.swap (p.firstUnmarked e) (p.position e) (p.position x) := by
  have hfst := (h.firstUnmarked_mem he hunmarked).2
  have helem := h.element_lt hfst
  unfold firstUnmarked at hfst helem ⊢
  set first := (p.descriptor (p.setIndex e)).indexAfterMarkedElements with hdef
  have hval : (p.markElementInCurrentGeneration e).position x =
      if p.element first = x then p.position e
      else if e = x then first else p.position x := by
    simp only [markElementInCurrentGeneration, position, getD_set, length_set,
      h.length_positions, ← hdef, he, helem, and_true]
  rw [hval, Equiv.swap_apply_def]
  by_cases hxf : p.element first = x
  · rw [if_pos hxf, if_pos (by rw [← hxf, h.position_element hfst])]
  · have hne : p.position x ≠ first := by
      intro heq
      exact hxf (by rw [← heq, h.element_position hx])
    rw [if_neg hxf, if_neg hne]
    by_cases hxe : e = x
    · rw [if_pos hxe, if_pos (by rw [hxe])]
    · have hne : p.position x ≠ p.position e := by
        intro heq
        exact hxe (by rw [← h.element_position he, ← heq, h.element_position hx])
      rw [if_neg hxe, if_neg hne]

/-- The two elements that are swapped are in the same set. -/
theorem Valid.setIndex_firstUnmarked :
    p.setIndex (p.element (p.firstUnmarked e)) = p.setIndex e := by
  obtain ⟨hle, hlt⟩ := h.firstUnmarked_mem he hunmarked
  rw [← h.mem_interval_iff hlt (h.setIndex_lt he)]
  exact ⟨Nat.le_add_right _ _, hle.trans_lt (h.position_mem he).2⟩

theorem Valid.setIndex_swap : p.setIndex (p.element
    (Equiv.swap (p.firstUnmarked e) (p.position e) i)) = p.setIndex (p.element i) := by
  have hfst := h.setIndex_firstUnmarked he hunmarked
  rw [Equiv.swap_apply_def]
  split_ifs with hi hi
  · rw [hi, hfst, h.element_position he]
  · rw [hi, hfst, h.element_position he]
  · rfl

/-- Marking an element only swaps elements of its set. -/
theorem Valid.mark : (p.markElementInCurrentGeneration e).Valid size := by
  obtain ⟨hle, hlt⟩ := h.firstUnmarked_mem he hunmarked
  have hposn := h.position_lt he
  have hidx := h.setIndex_lt he
  have hstart := start_setMarkedCount hidx
    (show (p.markElementInCurrentGeneration e).sets = _ from rfl)
  have hsize := size_setMarkedCount hidx
    (show (p.markElementInCurrentGeneration e).sets = _ from rfl)
  refine ⟨?_, ?_, h.length_map, ?_, ?_, ?_, ?_, fun hx => (h.setIndex_lt hx).trans_eq
    length_sets_mark.symm, ?_, ?_, ?_, ?_⟩
  · simpa only [markElementInCurrentGeneration, length_set] using h.length_elements
  · simpa only [markElementInCurrentGeneration, length_set] using h.length_positions
  · intro x hx
    rw [h.position_mark he hunmarked hx]
    exact swap_lt hlt hposn (h.position_lt hx)
  · intro i hi
    rw [h.element_mark he hunmarked]
    exact h.element_lt (swap_lt hlt hposn hi)
  · intro x hx
    rw [h.element_mark he hunmarked, h.position_mark he hunmarked hx, Equiv.swap_apply_self]
    exact h.element_position hx
  · intro i hi
    have hswap := swap_lt hlt hposn hi
    rw [h.element_mark he hunmarked, h.position_mark he hunmarked (h.element_lt hswap),
      h.position_element hswap, Equiv.swap_apply_self]
  · intro x s hx hs
    rw [length_sets_mark] at hs
    rw [SetDescriptor.stop, hstart, hsize, ← SetDescriptor.stop, h.position_mark he hunmarked hx, setIndex_mark,
      h.mem_interval_iff (swap_lt hlt hposn (h.position_lt hx)) hs, h.setIndex_swap he hunmarked,
      h.element_position hx]
  · intro s hs
    rw [SetDescriptor.stop, hstart, hsize]
    exact h.stop_le (hs.trans_eq length_sets_mark)
  · intro s hs
    rw [hsize]
    exact h.size_pos (hs.trans_eq length_sets_mark)
  · intro s hs
    rw [hsize, descriptor_mark hidx]
    split_ifs with hs'
    · subst hs'
      exact Nat.lt_of_add_lt_add_left (hle.trans_lt (h.position_mem he).2)
    · exact h.markedCount_le (hs.trans_eq length_sets_mark)

/-- One more element is marked. -/
theorem Valid.marked_mark (hx : x < size) :
    (p.markElementInCurrentGeneration e).Marked x ↔ p.Marked x ∨ x = e := by
  obtain ⟨hle, hlt⟩ := h.firstUnmarked_mem he hunmarked
  have hposn : x = e ↔ p.position x = p.position e := by
    constructor
    · intro heq
      rw [heq]
    · intro heq
      rw [← h.element_position hx, heq, h.element_position he]
  unfold Marked
  rw [hposn, h.position_mark he hunmarked hx, setIndex_mark, descriptor_mark (h.setIndex_lt he)]
  by_cases hidx : p.setIndex e = p.setIndex x
  · rw [if_pos hidx, ← hidx]
    simp only [firstUnmarked, SetDescriptor.indexAfterMarkedElements] at hle ⊢
    rw [Equiv.swap_apply_def]
    split_ifs <;> omega
  · rw [if_neg hidx]
    have hne : p.position x ≠ p.position e := by
      intro heq
      exact hidx (by rw [hposn.mpr heq])
    have hfst : p.position x ≠ p.firstUnmarked e := by
      intro heq
      have hsame := h.setIndex_firstUnmarked he hunmarked
      rw [← heq, h.element_position hx] at hsame
      exact hidx hsame.symm
    rw [Equiv.swap_apply_of_ne_of_ne hfst hne]
    simp [hne]

end Mark

theorem Valid.tracked_mark (h : p.Valid size) (htracked : p.Tracked) (he : e < size) :
    (p.markElementInCurrentGeneration e).Tracked := by
  have hidx := h.setIndex_lt he
  have hlist : (p.markElementInCurrentGeneration e).setsMarkedInCurrentGeneration =
      if (p.descriptor (p.setIndex e)).markedCount = 0 then
        p.setsMarkedInCurrentGeneration ++ [p.setIndex e]
      else p.setsMarkedInCurrentGeneration := rfl
  by_cases hzero : (p.descriptor (p.setIndex e)).markedCount = 0
  · rw [if_pos hzero] at hlist
    have hnew : p.setIndex e ∉ p.setsMarkedInCurrentGeneration := by
      intro hmem
      have := (htracked.mem_iff.mp hmem).2
      omega
    refine ⟨?_, ?_⟩
    · rw [hlist]
      exact nodup_append.mpr ⟨htracked.nodup, nodup_singleton _, fun a ha b hb => by
          rw [mem_singleton.mp hb]
          exact fun heq => hnew (heq ▸ ha)⟩
    · intro s
      rw [hlist, mem_append, mem_singleton, htracked.mem_iff, length_sets_mark,
        descriptor_mark hidx]
      by_cases hs : p.setIndex e = s
      · subst hs
        simp [hidx]
      · simp [hs, Ne.symm hs]
  · rw [if_neg hzero] at hlist
    refine ⟨hlist ▸ htracked.nodup, ?_⟩
    intro s
    rw [hlist, htracked.mem_iff, length_sets_mark, descriptor_mark hidx]
    by_cases hs : p.setIndex e = s
    · subst hs
      simp [Nat.pos_of_ne_zero hzero]
    · simp [hs]

def markAll (partition : Partition) (elements : List ℕ) : Partition :=
  elements.foldl markElementInCurrentGeneration partition

/-- Marking elements, each once, marks exactly these. -/
theorem Valid.markAll {elements : List ℕ} (h : p.Valid size) (htracked : p.Tracked)
    (hlt : ∀ e ∈ elements, e < size) (hnodup : elements.Nodup)
    (hunmarked : ∀ e ∈ elements, ¬ p.Marked e) :
    (p.markAll elements).Valid size ∧ (p.markAll elements).Tracked ∧
      (∀ x, (p.markAll elements).setIndex x = p.setIndex x) ∧
      (p.markAll elements).sets.length = p.sets.length ∧
      ∀ x < size, (p.markAll elements).Marked x ↔ p.Marked x ∨ x ∈ elements := by
  induction elements generalizing p with
  | nil => exact ⟨h, htracked, fun _ => rfl, rfl, fun x _ => by simp [Partition.markAll]⟩
  | cons e rest ih =>
    obtain ⟨he, hrestLt⟩ := forall_mem_cons.mp hlt
    obtain ⟨hnew, hrestUnmarked⟩ := forall_mem_cons.mp hunmarked
    obtain ⟨hnotMem, hrestNd⟩ := nodup_cons.mp hnodup
    have hmarked {x : ℕ} (hx : x < size) := h.marked_mark he hnew hx
    obtain ⟨hvalid, htracked', hidx, hlen, hall⟩ :=
      ih (h.mark he hnew) (h.tracked_mark htracked he) hrestLt hrestNd (by
        intro x hx hmark
        rcases (hmarked (hrestLt x hx)).mp hmark with hmark | heq
        · exact hrestUnmarked x hx hmark
        · exact hnotMem (heq ▸ hx))
    refine ⟨hvalid, htracked', hidx, hlen.trans length_sets_mark, fun x hx => ?_⟩
    rw [mem_cons, ← or_assoc, ← hmarked hx]
    exact hall x hx

theorem getD_foldl_set {positions : List ℕ} {f : ℕ → ℕ} {a : ℕ} {l : List ℕ} (hx : x < l.length) :
    (positions.foldl (fun l i => l.set (f i) a) l).getD x 0 =
      if x ∈ positions.map f then a else l.getD x 0 := by
  induction positions generalizing l with
  | nil => simp
  | cons i rest ih =>
    rw [foldl_cons, ih (by rwa [length_set]), map_cons, getD_set]
    by_cases hrest : x ∈ rest.map f
    · simp [hrest]
    · by_cases hi : f i = x
      · rw [if_neg hrest, if_pos ⟨hi, hi ▸ hx⟩, if_pos (by rw [hi]; exact mem_cons_self)]
      · have hnot : x ∉ f i :: rest.map f := fun hmem =>
          (mem_cons.mp hmem).elim (fun heq => hi heq.symm) hrest
        rw [if_neg hrest, if_neg (fun h => hi h.1), if_neg hnot]

theorem length_foldl_set {positions : List ℕ} {f : ℕ → ℕ} {a : ℕ} {l : List ℕ} :
    (positions.foldl (fun l i => l.set (f i) a) l).length = l.length := by
  induction positions generalizing l with
  | nil => rfl
  | cons i rest ih => rw [foldl_cons, ih, length_set]

theorem Valid.mem_map_element (h : p.Valid size) (hx : x < size) {start count : ℕ}
    (hstop : start + count ≤ size) : x ∈ (range' start count).map p.element ↔
      start ≤ p.position x ∧ p.position x < start + count := by
  rw [mem_map]
  constructor
  · intro ⟨i, hi, hix⟩
    obtain ⟨hle, hlt⟩ := mem_range'_1.mp hi
    rw [← hix, h.position_element (hlt.trans_le hstop)]
    exact ⟨hle, hlt⟩
  · intro hmem
    exact ⟨p.position x, mem_range'_1.mpr hmem, h.element_position hx⟩

/-- The elements of a set are those with its index. -/
theorem Valid.mem_elementsOfSet (h : p.Valid size) (hs : s < p.sets.length) :
    x ∈ p.elementsOfSet s ↔ x < size ∧ p.setIndex x = s := by
  have hstop := h.stop_le hs
  constructor
  · intro hmem
    obtain ⟨i, hi, hix⟩ := mem_map.mp hmem
    have hlt : i < size := (mem_range'_1.mp hi).2.trans_le hstop
    have hx : x < size := hix ▸ h.element_lt hlt
    exact ⟨hx, (h.setIndex_eq_iff hx hs).mpr ((h.mem_map_element hx hstop).mp hmem)⟩
  · intro ⟨hx, hidx⟩
    exact (h.mem_map_element hx hstop).mpr ((h.setIndex_eq_iff hx hs).mp hidx)

theorem Valid.nodup_elementsOfSet (h : p.Valid size) (hs : s < p.sets.length) :
    (p.elementsOfSet s).Nodup := by
  have hstop := h.stop_le hs
  refine List.Nodup.map_on (fun i hi j hj heq => ?_) nodup_range'
  have hi' : i < size := (mem_range'_1.mp hi).2.trans_le hstop
  have hj' : j < size := (mem_range'_1.mp hj).2.trans_le hstop
  rw [← h.position_element hi', heq, h.position_element hj']

structure Parts (set newSet oldSet : SetDescriptor) : Prop where
  newSet_iff : ∃ isMarkedSet : Prop, ∀ i, newSet.start ≤ i ∧ i < newSet.stop ↔
    (set.start ≤ i ∧ i < set.stop) ∧ (i < set.indexAfterMarkedElements ↔ isMarkedSet)
  oldSet_iff : ∀ i, oldSet.start ≤ i ∧ i < oldSet.stop ↔
    (set.start ≤ i ∧ i < set.stop) ∧ ¬ (newSet.start ≤ i ∧ i < newSet.stop)
  size_pos : 0 < newSet.size ∧ 0 < oldSet.size
  markedCount_eq : newSet.markedCount = 0 ∧ oldSet.markedCount = 0
  stop_le : newSet.stop ≤ set.stop ∧ oldSet.stop ≤ set.stop

theorem parts {set : SetDescriptor} (hpos : 0 < set.markedCount) (hlt : set.markedCount < set.size) :
    Parts set (newSet set) (oldSet set) := by
  unfold newSet oldSet
  split_ifs with hhalf
  · refine ⟨⟨True, fun i => ?_⟩, fun i => ?_, ⟨hpos, ?_⟩, ⟨rfl, rfl⟩, ?_⟩ <;>
      simp only [SetDescriptor.stop, SetDescriptor.indexAfterMarkedElements, iff_true] <;> omega
  · refine ⟨⟨False, fun i => ?_⟩, fun i => ?_, ?_, ⟨rfl, rfl⟩, ?_⟩ <;>
      simp only [SetDescriptor.stop, SetDescriptor.indexAfterMarkedElements, iff_false] <;> omega

structure RefinesSet (partition refined : Partition) (size s : ℕ) : Prop where
  valid : refined.Valid size
  marked_iff : ∀ {x}, x < size → (refined.Marked x ↔ partition.Marked x ∧ partition.setIndex x ≠ s)
  setIndex_eq_iff : ∀ {x y}, x < size → y < size → (refined.setIndex x = refined.setIndex y ↔
    partition.setIndex x = partition.setIndex y ∧
      (partition.setIndex x = s → (partition.Marked x ↔ partition.Marked y)))
  moved : ∀ {x}, x < size → refined.setIndex x = partition.setIndex x ∨
    partition.setIndex x = s ∧ refined.setIndex x = partition.sets.length
  length_le : partition.sets.length ≤ refined.sets.length
  descriptor_eq : ∀ {t}, t < partition.sets.length → t ≠ s →
    refined.descriptor t = partition.descriptor t

section RefineSet

variable (h : p.Valid size) (hs : s < p.sets.length)

include h hs

/-- A set all of whose elements are marked is not split. -/
theorem Valid.refineSet_of_eq (hall : (p.descriptor s).markedCount = (p.descriptor s).size) :
    ∃ refined, p.refineSet s = (refined, none) ∧ RefinesSet p refined size s ∧
      ∀ x, refined.setIndex x = p.setIndex x := by
  set refined : Partition := { p with
    sets := p.sets.set s { p.descriptor s with markedCount := 0 } }
  have hsets : refined.sets = _ := rfl
  have hdesc := descriptor_setMarkedCount hs hsets
  have hlen : refined.sets.length = p.sets.length := length_set
  have hstart := start_setMarkedCount hs hsets
  have hsize := size_setMarkedCount hs hsets
  have hmarked {x : ℕ} (hx : x < size) (heq : p.setIndex x = s) : p.Marked x := by
    have hmem := h.position_mem hx
    unfold Marked
    rw [heq] at hmem ⊢
    rw [SetDescriptor.indexAfterMarkedElements, hall]
    exact hmem.2
  refine ⟨refined, if_pos hall, ⟨⟨h.length_elements, h.length_positions, h.length_map, h.position_lt,
    h.element_lt, h.element_position, h.position_element, ?_, ?_, ?_, ?_, ?_⟩, ?_, ?_, ?_, ?_, ?_⟩,
    fun _ => rfl⟩
  · intro e he
    rw [hlen]
    exact h.setIndex_lt he
  · intro e t he ht
    rw [SetDescriptor.stop, hstart, hsize]
    exact h.setIndex_eq_iff he (hlen ▸ ht)
  · intro t ht
    rw [SetDescriptor.stop, hstart, hsize]
    exact h.stop_le (hlen ▸ ht)
  · intro t ht
    rw [hsize]
    exact h.size_pos (hlen ▸ ht)
  · intro t ht
    rw [hsize, hdesc]
    split_ifs
    · exact Nat.zero_le _
    · exact h.markedCount_le (hlen ▸ ht)
  · intro x hx
    change p.position x < (refined.descriptor (p.setIndex x)).indexAfterMarkedElements ↔ _
    rw [hdesc]
    by_cases heq : s = p.setIndex x
    · have hle := (h.position_mem hx).1
      rw [if_pos heq]
      exact iff_of_false (by simpa [SetDescriptor.indexAfterMarkedElements] using hle)
        fun hand => hand.2 heq.symm
    · rw [if_neg heq]
      exact ⟨fun hmark => ⟨hmark, Ne.symm heq⟩, fun hand => hand.1⟩
  · intro x y hx hy
    constructor
    · intro heq
      exact ⟨heq, fun hset => iff_of_true (hmarked hx hset) (hmarked hy (heq ▸ hset))⟩
    · intro hand
      exact hand.1
  · exact fun _ => .inl rfl
  · exact hlen.ge
  · intro t _ hne
    rw [hdesc, if_neg hne.symm]

/-- A set with marked and other elements is split. -/
theorem Valid.refineSet_of_ne (hpos : 0 < (p.descriptor s).markedCount)
    (hne : (p.descriptor s).markedCount ≠ (p.descriptor s).size) :
    ∃ refined, p.refineSet s = (refined, some p.sets.length) ∧ RefinesSet p refined size s ∧
      refined.sets.length = p.sets.length + 1 := by
  classical
  have hparts := parts hpos (lt_of_le_of_ne (h.markedCount_le hs) hne)
  set set := p.descriptor s with hset
  set refined : Partition := { p with
    sets := p.sets.set s (oldSet set) ++ [newSet set]
    elementToSetMap := (range' (newSet set).start (newSet set).size).foldl
      (fun map i => map.set (p.element i) p.sets.length)
      p.elementToSetMap } with hdef
  have hlen : refined.sets.length = p.sets.length + 1 := by simp [hdef]
  have hnew : refined.descriptor p.sets.length = newSet set := by
    simp [hdef, descriptor, getD_eq_getElem?_getD]
  have hold (t : ℕ) (ht : t < p.sets.length) :
      refined.descriptor t = if s = t then oldSet set else p.descriptor t := by
    have hleft : (p.sets.set s (oldSet set) ++ [newSet set]).getD t ⟨0, 0, 0⟩ =
        (p.sets.set s (oldSet set)).getD t ⟨0, 0, 0⟩ :=
      getD_append _ _ _ _ (by rwa [length_set])
    rw [descriptor, hleft, getD_set]
    simp only [hs, and_true]
    rfl
  have hall {P : SetDescriptor → Prop} (hnewSet : P (newSet set)) (holdSet : P (oldSet set))
      (hoth : ∀ {t}, t < p.sets.length → P (p.descriptor t)) {t : ℕ}
      (ht : t < refined.sets.length) : P (refined.descriptor t) := by
    by_cases hlast : t = p.sets.length
    · rwa [hlast, hnew]
    · have ht' : t < p.sets.length := by omega
      rw [hold t ht']
      split_ifs
      · exact holdSet
      · exact hoth ht'
  have hstop : (newSet set).stop ≤ size := hparts.stop_le.1.trans (h.stop_le hs)
  obtain ⟨isMarkedSet, hmarkedSet⟩ := hparts.newSet_iff
  have hmem {x : ℕ} (hx : x < size) :
      (newSet set).start ≤ p.position x ∧ p.position x < (newSet set).stop ↔
        p.setIndex x = s ∧ (p.Marked x ↔ isMarkedSet) := by
    rw [hmarkedSet, h.setIndex_eq_iff hx hs]
    refine and_congr_right fun hin => ?_
    have hs' := (h.setIndex_eq_iff hx hs).mpr hin
    rw [Marked, hs']
  have hidx {x : ℕ} (hx : x < size) : refined.setIndex x =
      if p.setIndex x = s ∧ (p.Marked x ↔ isMarkedSet) then p.sets.length else p.setIndex x := by
    rw [setIndex, getD_foldl_set (by rwa [h.length_map])]
    exact if_congr ((h.mem_map_element hx hstop).trans (hmem hx)) rfl rfl
  have hfresh {x : ℕ} (hx : x < size) : p.setIndex x ≠ p.sets.length :=
    Nat.ne_of_lt (h.setIndex_lt hx)
  have hmoved {x : ℕ} (hx : x < size) : refined.setIndex x = p.setIndex x ∨
      p.setIndex x = s ∧ refined.setIndex x = p.sets.length := by
    rw [hidx hx]
    split_ifs with hx'
    · exact .inr ⟨hx'.1, rfl⟩
    · exact .inl rfl
  refine ⟨refined, if_neg hne, ⟨⟨h.length_elements, h.length_positions, ?_, h.position_lt, h.element_lt,
    h.element_position, h.position_element, ?_, ?_, ?_, ?_, ?_⟩, ?_, ?_, hmoved, ?_, ?_⟩, hlen⟩
  · exact length_foldl_set.trans h.length_map
  · intro e he
    rw [hlen]
    rcases hmoved he with heq | heq
    · rw [heq]
      exact (h.setIndex_lt he).trans (Nat.lt_succ_self _)
    · rw [heq.2]
      exact Nat.lt_succ_self _
  · intro e t he ht
    change refined.setIndex e = t ↔ (refined.descriptor t).start ≤ p.position e ∧
      p.position e < (refined.descriptor t).stop
    rw [hidx he]
    by_cases hlast : t = p.sets.length
    · subst hlast
      rw [hnew, hmem he]
      split_ifs with he'
      · exact iff_of_true rfl he'
      · exact iff_of_false (hfresh he) he'
    · have ht' : t < p.sets.length := by omega
      rw [hold t ht']
      by_cases hts : s = t
      · subst hts
        rw [if_pos rfl, hparts.oldSet_iff, hmem he, ← h.setIndex_eq_iff he hs]
        split_ifs with he'
        · exact iff_of_false (Ne.symm hlast) fun hand => hand.2 he'
        · exact ⟨fun heq => ⟨heq, he'⟩, fun hand => hand.1⟩
      · rw [if_neg hts, ← h.setIndex_eq_iff he ht']
        split_ifs with he'
        · exact iff_of_false (Ne.symm hlast) fun heq => hts (he'.1.symm.trans heq)
        · rfl
  · exact hall (P := (·.stop ≤ size)) hstop (hparts.stop_le.2.trans (h.stop_le hs)) h.stop_le
  · exact hall (P := (0 < ·.size)) hparts.size_pos.1 hparts.size_pos.2 h.size_pos
  · exact hall (P := fun set => set.markedCount ≤ set.size)
      (hparts.markedCount_eq.1.trans_le (Nat.zero_le _))
      (hparts.markedCount_eq.2.trans_le (Nat.zero_le _)) h.markedCount_le
  · intro x hx
    change p.position x < (refined.descriptor (refined.setIndex x)).indexAfterMarkedElements ↔ _
    by_cases hxs : p.setIndex x = s
    · refine iff_of_false (Nat.not_lt.mpr ?_) fun hand => hand.2 hxs
      have hset' : (set.start ≤ p.position x ∧ p.position x < set.stop) :=
        (h.setIndex_eq_iff hx hs).mp hxs
      rw [hidx hx, SetDescriptor.indexAfterMarkedElements]
      split_ifs with hx'
      · rw [hnew, hparts.markedCount_eq.1]
        exact ((hmem hx).mpr hx').1
      · rw [hxs, hold s hs, if_pos rfl, hparts.markedCount_eq.2]
        exact ((hparts.oldSet_iff _).mpr ⟨hset', fun hnew => hx' ((hmem hx).mp hnew)⟩).1
    · rw [hidx hx, if_neg fun hx' => hxs hx'.1, hold _ (h.setIndex_lt hx), if_neg (Ne.symm hxs)]
      exact ⟨fun hmark => ⟨hmark, hxs⟩, fun hand => hand.1⟩
  · intro x y hx hy
    rw [hidx hx, hidx hy]
    split_ifs with hx' hy' hy'
    · exact iff_of_true rfl ⟨hx'.1.trans hy'.1.symm, fun _ => hx'.2.trans hy'.2.symm⟩
    · refine iff_of_false (hfresh hy).symm fun hand => hy' ⟨hand.1.symm.trans hx'.1, ?_⟩
      exact (hand.2 hx'.1).symm.trans hx'.2
    · refine iff_of_false (hfresh hx) fun hand => hx' ⟨hand.1.trans hy'.1, ?_⟩
      exact (hand.2 (hand.1.trans hy'.1)).trans hy'.2
    · refine ⟨fun heq => ⟨heq, fun hxs => ?_⟩, fun hand => hand.1⟩
      have hny : ¬ (p.Marked y ↔ isMarkedSet) := fun hiff => hy' ⟨heq ▸ hxs, hiff⟩
      tauto
  · omega
  · intro t ht hts
    rw [hold t ht, if_neg hts.symm]

end RefineSet

structure Refines (partition refined : Partition) (size : ℕ) (marked : List ℕ) : Prop where
  valid : refined.Valid size
  marked_iff : ∀ {x}, x < size →
    (refined.Marked x ↔ partition.Marked x ∧ partition.setIndex x ∉ marked)
  setIndex_eq_iff : ∀ {x y}, x < size → y < size → (refined.setIndex x = refined.setIndex y ↔
    partition.setIndex x = partition.setIndex y ∧
      (partition.setIndex x ∈ marked → (partition.Marked x ↔ partition.Marked y)))
  moved : ∀ {x}, x < size → refined.setIndex x = partition.setIndex x ∨
    partition.sets.length ≤ refined.setIndex x
  length_le : partition.sets.length ≤ refined.sets.length

theorem RefinesSet.mem_iff {refined : Partition} {rest : List ℕ} (h : RefinesSet p refined size s)
    (hlt : ∀ t ∈ rest, t < p.sets.length) (hs : s ∉ rest) (hx : x < size) :
    refined.setIndex x ∈ rest ↔ p.setIndex x ∈ rest := by
  rcases h.moved hx with heq | ⟨hset, hnew⟩
  · rw [heq]
  · refine iff_of_false (fun hmem => ?_) fun hmem => hs (hset ▸ hmem)
    exact lt_irrefl _ (hnew ▸ hlt _ hmem)

/-- A refinement of one more set before the others. -/
theorem RefinesSet.cons {refined last : Partition} {rest : List ℕ}
    (h : RefinesSet p refined size s) (hlast : Refines refined last size rest)
    (hlt : ∀ t ∈ rest, t < p.sets.length) (hs : s ∉ rest) :
    Refines p last size (s :: rest) where
  valid := hlast.valid
  marked_iff hx := by
    rw [hlast.marked_iff hx, h.marked_iff hx, h.mem_iff hlt hs hx, mem_cons]
    tauto
  setIndex_eq_iff := by
    intro x y hx hy
    rw [hlast.setIndex_eq_iff hx hy, h.setIndex_eq_iff hx hy, h.mem_iff hlt hs hx, h.marked_iff hx,
      h.marked_iff hy, mem_cons]
    constructor
    · intro ⟨⟨heq, hset⟩, hrest⟩
      refine ⟨heq, fun hmem => hmem.elim hset fun hmem => ?_⟩
      have hiff := hrest hmem
      rw [← heq] at hiff
      tauto
    · intro ⟨heq, hall⟩
      refine ⟨⟨heq, fun hset => hall (.inl hset)⟩, fun hmem => ?_⟩
      rw [hall (.inr hmem), heq]
  moved hx := by
    rcases hlast.moved hx with heq | hle
    · rw [heq]
      exact (h.moved hx).imp_right fun hnew => hnew.2.ge
    · exact .inr (h.length_le.trans hle)
  length_le := h.length_le.trans hlast.length_le

theorem Valid.markedCount_pos (h : p.Valid size) (hx : x < size) (hmarked : p.Marked x) :
    0 < (p.descriptor (p.setIndex x)).markedCount := by
  have hmem := h.position_mem hx
  simp only [Marked, SetDescriptor.indexAfterMarkedElements] at hmarked
  omega

/-- A set has a first element. -/
theorem Valid.start_lt (h : p.Valid size) (hs : s < p.sets.length) :
    (p.descriptor s).start < size ∧ p.setIndex (p.firstElementInSet s) = s := by
  have hsize := h.size_pos hs
  have hstop := h.stop_le hs
  simp only [SetDescriptor.stop] at hstop
  have hlt : (p.descriptor s).start < size := by omega
  exact ⟨hlt, (h.mem_interval_iff hlt hs).mp ⟨le_rfl, Nat.lt_add_of_pos_right hsize⟩⟩

structure Settled (partition : Partition) (size : ℕ) : Prop where
  valid : partition.Valid size
  setsMarked_eq : partition.setsMarkedInCurrentGeneration = []
  unmarked : ∀ {x}, x < size → ¬ partition.Marked x

theorem Settled.tracked (h : p.Settled size) : p.Tracked := by
  refine ⟨?_, ?_⟩
  · rw [h.setsMarked_eq]
    exact nodup_nil
  · intro s
    rw [h.setsMarked_eq]
    refine iff_of_false not_mem_nil fun hand => ?_
    obtain ⟨hfst, hidx⟩ := h.valid.start_lt hand.1
    refine h.unmarked (h.valid.element_lt hfst) ?_
    rw [Marked, ← firstElementInSet, hidx, firstElementInSet, h.valid.position_element hfst]
    exact Nat.lt_add_of_pos_right hand.2

/-- What a refinement by marks changes: each set is split by the marks of its elements, and new sets get
new indices. -/
structure Generation (partition refined : Partition) (size : ℕ) : Prop where
  settled : refined.Settled size
  setIndex_eq_iff : ∀ {x y}, x < size → y < size → (refined.setIndex x = refined.setIndex y ↔
    partition.setIndex x = partition.setIndex y ∧ (partition.Marked x ↔ partition.Marked y))
  moved : ∀ {x}, x < size → refined.setIndex x = partition.setIndex x ∨
    partition.sets.length ≤ refined.setIndex x
  length_le : partition.sets.length ≤ refined.sets.length

/-- There are at most as many sets as elements. -/
theorem Valid.length_sets_le (h : p.Valid size) : p.sets.length ≤ size := by
  have hcard := Finset.card_le_card_of_injOn p.firstElementInSet
    (s := Finset.range p.sets.length) (t := Finset.range size)
    (fun s hs => by
      have hlt := (h.start_lt (Finset.mem_range.mp hs)).1
      exact Finset.mem_coe.mpr (Finset.mem_range.mpr (h.element_lt hlt)))
    (fun s hs t ht heq => by
      have hs' := (h.start_lt (Finset.mem_range.mp hs)).2
      have ht' := (h.start_lt (Finset.mem_range.mp ht)).2
      rw [← hs', heq, ht'])
  simpa using hcard

/-- The first element of a set is in the set. -/
theorem Valid.firstElement (h : p.Valid size) (hx : x < size) :
    p.firstElementInSet (p.setIndex x) < size ∧
      p.setIndex (p.firstElementInSet (p.setIndex x)) = p.setIndex x := by
  obtain ⟨hlt, hidx⟩ := h.start_lt (h.setIndex_lt hx)
  exact ⟨h.element_lt hlt, hidx⟩

section RefineGeneration

variable {function : Partition → ℕ → σ → σ} {state : σ} {P : (ℕ → ℕ) → σ → Prop}
  (hstep : ∀ (p refined : Partition) (state : σ) (s : ℕ), RefinesSet p refined size s →
    p.Valid size → refined.sets.length = p.sets.length + 1 →
    P p.setIndex state → P refined.setIndex (function refined p.sets.length state))

include hstep

/-- A run of refinements; what the function keeps holds at the end. -/
theorem Valid.foldl_refineStep (h : p.Valid size) {marked : List ℕ} (hnodup : marked.Nodup)
    (hmarked : ∀ t ∈ marked, t < p.sets.length ∧ 0 < (p.descriptor t).markedCount)
    (hP : P p.setIndex state) :
    Refines p (marked.foldl (refineStep function) (p, state)).1 size marked ∧
      P (marked.foldl (refineStep function) (p, state)).1.setIndex
        (marked.foldl (refineStep function) (p, state)).2 := by
  induction marked generalizing p state with
  | nil =>
    refine ⟨⟨h, fun _ => ?_, fun _ _ => ?_, fun _ => .inl rfl, le_rfl⟩, hP⟩ <;> simp
  | cons s rest ih =>
    obtain ⟨⟨hs, hpos⟩, hrest⟩ := forall_mem_cons.mp hmarked
    obtain ⟨hnotMem, hrestNd⟩ := nodup_cons.mp hnodup
    have hrestLt : ∀ t ∈ rest, t < p.sets.length := fun t ht => (hrest t ht).1
    have hkept {refined : Partition} (hrefs : RefinesSet p refined size s) :
        ∀ t ∈ rest, t < refined.sets.length ∧ 0 < (refined.descriptor t).markedCount := by
      intro t ht
      rw [hrefs.descriptor_eq (hrestLt t ht) fun heq => hnotMem (heq ▸ ht)]
      exact ⟨(hrestLt t ht).trans_le hrefs.length_le, (hrest t ht).2⟩
    rw [foldl_cons]
    obtain ⟨refined, state', hnext, hrefs, hP⟩ : ∃ refined state',
        refineStep function (p, state) s = (refined, state') ∧ RefinesSet p refined size s ∧
          P refined.setIndex state' := by
      rw [refineStep]
      by_cases hall : (p.descriptor s).markedCount = (p.descriptor s).size
      · obtain ⟨refined, hrefine, hrefs, hidx⟩ := h.refineSet_of_eq hs hall
        exact ⟨refined, state, by rw [hrefine], hrefs, by rwa [funext hidx]⟩
      · obtain ⟨refined, hrefine, hrefs, hlen⟩ := h.refineSet_of_ne hs hpos hall
        exact ⟨refined, _, by rw [hrefine], hrefs, hstep p refined state s hrefs h hlen hP⟩
    obtain ⟨hlast, hP'⟩ := ih hrefs.valid hrestNd (hkept hrefs) hP
    rw [hnext]
    exact ⟨hrefs.cons hlast hrestLt hnotMem, hP'⟩

/-- A refinement splits each set by the marks of its elements, and what the function keeps holds at the
end. -/
theorem Valid.refineGeneration (h : p.Valid size) (htracked : p.Tracked) (hP : P p.setIndex state) :
    Generation p (p.refineGeneration function state).1 size ∧
      P (p.refineGeneration function state).1.setIndex
        (p.refineGeneration function state).2 := by
  obtain ⟨hrefs, hP'⟩ := h.foldl_refineStep hstep htracked.nodup
    (fun t ht => htracked.mem_iff.mp ht) hP
  have hlisted {x : ℕ} (hx : x < size) (hmarked : p.Marked x) :
      p.setIndex x ∈ p.setsMarkedInCurrentGeneration :=
    htracked.mem_iff.mpr ⟨h.setIndex_lt hx, h.markedCount_pos hx hmarked⟩
  have hvalid := hrefs.valid
  refine ⟨⟨⟨{ hvalid with }, rfl, ?_⟩, ?_,
    hrefs.moved, hrefs.length_le⟩, hP'⟩
  · intro x hx hmarked
    have hand := (hrefs.marked_iff hx).mp hmarked
    exact hand.2 (hlisted hx hand.1)
  · intro x y hx hy
    refine (hrefs.setIndex_eq_iff hx hy).trans (and_congr_right fun heq => ?_)
    refine ⟨fun hlist => ⟨fun hmarked => ?_, fun hmarked => ?_⟩, fun hiff _ => hiff⟩
    · exact (hlist (hlisted hx hmarked)).mp hmarked
    · exact (hlist (heq ▸ hlisted hy hmarked)).mpr hmarked

end RefineGeneration

/-- A settled partition is split by a list of elements. -/
theorem Settled.generation (function : Partition → ℕ → σ → σ) (state : σ) {P : (ℕ → ℕ) → σ → Prop}
    (h : p.Settled size)
    (hstep : ∀ p refined state s, RefinesSet p refined size s →
      p.Valid size → refined.sets.length = p.sets.length + 1 →
      P p.setIndex state → P refined.setIndex (function refined p.sets.length state))
    {elements : List ℕ} (hlt : ∀ e ∈ elements, e < size)
    (hnodup : elements.Nodup) (hP : P p.setIndex state) :
    let result := (p.markAll elements).refineGeneration function state
    result.1.Settled size ∧
      (∀ {x y}, x < size → y < size → (result.1.setIndex x = result.1.setIndex y ↔
        p.setIndex x = p.setIndex y ∧ (x ∈ elements ↔ y ∈ elements))) ∧
      (∀ {x}, x < size → result.1.setIndex x = p.setIndex x ∨ p.sets.length ≤ result.1.setIndex x) ∧
      p.sets.length ≤ result.1.sets.length ∧ P result.1.setIndex result.2 := by
  obtain ⟨hvalid, htracked, hidx, hlen, hmarked⟩ := h.valid.markAll h.tracked hlt hnodup
    fun e he => h.unmarked (hlt e he)
  have hmarked' {x : ℕ} (hx : x < size) : (p.markAll elements).Marked x ↔ x ∈ elements :=
    (hmarked x hx).trans (or_iff_right (h.unmarked hx))
  obtain ⟨hgen, hP'⟩ := hvalid.refineGeneration hstep htracked (by rwa [funext hidx])
  refine ⟨hgen.settled, fun hx hy => ?_, fun hx => ?_, hlen ▸ hgen.length_le, hP'⟩
  · rw [hgen.setIndex_eq_iff hx hy, hidx, hidx, hmarked' hx, hmarked' hy]
  · have hmoved := hgen.moved hx
    rwa [hidx, hlen] at hmoved

theorem settled_initialized (size : ℕ) : (initialized size).Settled size ∧
    ∀ x, (initialized size).setIndex x = 0 := by
  unfold initialized
  by_cases hsize : size = 0
  · subst hsize
    rw [if_pos rfl]
    refine ⟨⟨⟨rfl, rfl, rfl, ?_, ?_, ?_, ?_, ?_, ?_, ?_, ?_, ?_⟩, rfl, ?_⟩, fun _ => rfl⟩ <;>
      intro _ <;> simp [empty]
  · rw [if_neg hsize]
    have hposn : ∀ x < size, (range size).getD x 0 = x := by
      intro x hx
      rw [getD_eq_getElem?_getD, getElem?_range hx]
      rfl
    have hidx : ∀ x, (replicate size 0).getD x 0 = 0 := by
      intro x
      rw [getD_eq_getElem?_getD, getElem?_replicate]
      split_ifs <;> rfl
    have hone {s : ℕ} (hs : s < [(⟨0, size, 0⟩ : SetDescriptor)].length) : s = 0 := by simpa using hs
    refine ⟨⟨⟨length_range, length_range, length_replicate, ?_, ?_, ?_, ?_, ?_, ?_, ?_, ?_, ?_⟩,
      rfl, ?_⟩, hidx⟩
    · intro e he
      exact (hposn e he).trans_lt he
    · intro i hi
      exact (hposn i hi).trans_lt hi
    · intro e he
      simp only [position, element, hposn e he]
    · intro i hi
      simp only [position, element, hposn i hi]
    · intro e he
      simp only [setIndex, hidx]
      exact Nat.zero_lt_one
    · intro e s he hs
      obtain rfl := hone hs
      simp only [setIndex, hidx, position, hposn e he, true_iff]
      exact ⟨Nat.zero_le e, by simpa [descriptor, SetDescriptor.stop] using he⟩
    · intro s hs
      obtain rfl := hone hs
      simp [descriptor, SetDescriptor.stop]
    · intro s hs
      obtain rfl := hone hs
      exact Nat.pos_of_ne_zero hsize
    · intro s hs
      obtain rfl := hone hs
      exact Nat.zero_le _
    · intro x hx
      simp only [Marked, setIndex, hidx, descriptor, SetDescriptor.indexAfterMarkedElements]
      exact Nat.not_lt_zero _

end Partition

end WebKit.ContentExtensions
