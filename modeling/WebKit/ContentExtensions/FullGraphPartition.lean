import WebKit.ContentExtensions.DFA
import WebKit.ContentExtensions.MutableRangeList
import WebKit.ContentExtensions.Partition
import WebKit.Foundation.BucketPlacement
import WebKit.Foundation.PartitionRefinement

/-!
The partitions of the nodes and of the transitions of a DFA. The transitions are cut at the limits of
all ranges of the DFA, so that each of them has one of the resulting singular ranges as its label, and
are stored by their targets. The partition of the transitions starts with one set for each label.
-/

namespace WebKit.ContentExtensions

open BucketPlacement PartitionRefinement RangeMaps
open List hiding lookup lookup_cons
open Range (data first)

def counterConverter : DataConverter ℕ ℕ where
  convert _ := 1
  extend count _ := count + 1

def singularTransitions (nodes : List DFANode) : Option (MutableRangeList ℕ) :=
  nodes.foldlM (fun ranges node =>
    if node.isKilled then some ranges else ranges.extend counterConverter node.transitions) []

def seek (p : ℕ → Bool) (firsts : List ℕ) (index : ℕ) : ℕ :=
  if h : index < firsts.length then if p firsts[index] then seek p firsts (index + 1) else index
  else index
termination_by firsts.length - index

def iterateIntersections (firsts : List ℕ) : ℕ → List (Range ℕ) → List (ℕ × ℕ)
  | _, [] => []
  | index, range :: rest =>
    let first := seek (· != range.first) firsts index
    let stop := seek (· ≤ range.last) firsts (first + 1)
    (range' first (stop - first)).map (fun i => (i, range.data)) ++
      iterateIntersections firsts stop rest

structure SingularTransition where
  source : ℕ
  label : ℕ
  target : ℕ
deriving DecidableEq

def visitTransitions (firsts : List ℕ) (nodes : List DFANode) : List SingularTransition :=
  nodes.zipIdx.flatMap fun entry =>
    if entry.1.isKilled then []
    else (iterateIntersections firsts 0 entry.1.transitions).map fun visit =>
      ⟨entry.2, visit.1, visit.2⟩

namespace Partition

variable (partition : Partition)

def addSetUnchecked (start size : ℕ) : Partition :=
  { partition with sets := partition.sets ++ [⟨start, size, 0⟩] }

def reserveUninitializedCapacity (elementCount : ℕ) : Partition :=
  { partition with
    partitionedElements := replicate elementCount 0
    elementPositionInPartitionedNodes := replicate elementCount 0
    elementToSetMap := replicate elementCount 0 }

def setElementUnchecked (elementIndex positionInPartition setIndex : ℕ) : Partition :=
  { partition with
    partitionedElements := partition.partitionedElements.set positionInPartition elementIndex
    elementPositionInPartitionedNodes :=
      partition.elementPositionInPartitionedNodes.set elementIndex positionInPartition
    elementToSetMap := partition.elementToSetMap.set elementIndex setIndex }

def addSets (sizes : List ℕ) : Partition :=
  (sizes.zip (accumulate 0 sizes)).foldl (fun partition entry =>
    partition.addSetUnchecked entry.2 entry.1) empty

end Partition

structure FullGraphPartition where
  flattenedTransitionsStartOffsetPerNode : List ℕ
  flattenedTransitionsSizePerNode : List ℕ
  /-- The sources of the transitions. -/
  flattenedTransitions : List ℕ
  nodePartition : Partition
  transitionPartition : Partition
  nextTransitionSetToProcess : ℕ

structure TransitionTables where
  flattenedTransitionsSizePerNode : List ℕ
  flattenedTransitions : List ℕ
  transitionPerRangeOffset : List ℕ
  transitionPartition : Partition

def TransitionTables.fill (startOffsetPerNode : List ℕ) (tables : TransitionTables)
    (transition : SingularTransition) : TransitionTables :=
  let offset := tables.flattenedTransitionsSizePerNode.getD transition.target 0
  let position := startOffsetPerNode.getD transition.target 0 + offset
  let inRangeOffset := tables.transitionPerRangeOffset.getD transition.label 0
  let positionInTransitionPartition :=
    (tables.transitionPartition.descriptor transition.label).start + inRangeOffset
  { flattenedTransitionsSizePerNode :=
      tables.flattenedTransitionsSizePerNode.set transition.target (offset + 1)
    flattenedTransitions := tables.flattenedTransitions.set position transition.source
    transitionPerRangeOffset := tables.transitionPerRangeOffset.set transition.label (inRangeOffset + 1)
    transitionPartition := tables.transitionPartition.setElementUnchecked position
      positionInTransitionPartition transition.label }

def countIncoming (size : ℕ) (transitions : List SingularTransition) : List ℕ :=
  transitions.foldl (fun counts transition =>
    counts.set transition.target (counts.getD transition.target 0 + 1)) (replicate size 0)

namespace FullGraphPartition

def create (dfa : DFA) : Option FullGraphPartition :=
  (singularTransitions dfa.nodes).map fun singularTransitions =>
    let singularRanges := singularTransitions.toList
    let transitionPartition := Partition.addSets (singularRanges.map data)
    let transitions := visitTransitions (singularRanges.map first) dfa.nodes
    let counts := countIncoming dfa.nodes.length transitions
    let startOffsetPerNode := accumulate 0 counts
    let flattenedTransitionsSize := counts.sum
    let tables := transitions.foldl (TransitionTables.fill startOffsetPerNode)
      { flattenedTransitionsSizePerNode := replicate dfa.nodes.length 0
        flattenedTransitions := replicate flattenedTransitionsSize 0
        transitionPerRangeOffset := replicate transitionPartition.sets.length 0
        transitionPartition :=
          transitionPartition.reserveUninitializedCapacity flattenedTransitionsSize }
    { flattenedTransitionsStartOffsetPerNode := startOffsetPerNode
      flattenedTransitionsSizePerNode := tables.flattenedTransitionsSizePerNode
      flattenedTransitions := tables.flattenedTransitions
      nodePartition := Partition.initialized dfa.nodes.length
      transitionPartition := tables.transitionPartition
      nextTransitionSetToProcess := 0 }

variable (graph : FullGraphPartition) (nodeIndex : ℕ)

def markNode : FullGraphPartition :=
  { graph with nodePartition := graph.nodePartition.markElementInCurrentGeneration nodeIndex }

def incomingTransitions : List ℕ :=
  range' (graph.flattenedTransitionsStartOffsetPerNode.getD nodeIndex 0)
    (graph.flattenedTransitionsSizePerNode.getD nodeIndex 0)

def splitTransitions (nodePartition : Partition) (setIndex : ℕ) (transitionPartition : Partition) :
    Partition :=
  ((transitionPartition.markAll
    ((nodePartition.elementsOfSet setIndex).flatMap graph.incomingTransitions)).refineGeneration
      (fun _ _ state => state) ()).1

def refinePartitions : FullGraphPartition :=
  let result := graph.nodePartition.refineGeneration graph.splitTransitions graph.transitionPartition
  { graph with nodePartition := result.1, transitionPartition := result.2 }

def processNextSet : FullGraphPartition :=
  let sources := (graph.transitionPartition.elementsOfSet graph.nextTransitionSetToProcess).map
    (graph.flattenedTransitions.getD · 0)
  let refined :=
    refinePartitions { graph with nodePartition := graph.nodePartition.markAll sources }
  { refined with nextTransitionSetToProcess := refined.nextTransitionSetToProcess + 1 }

def splitByUniqueTransitions : ℕ → FullGraphPartition → Option FullGraphPartition
  | 0, _ => none
  | fuel + 1, graph =>
    if graph.nextTransitionSetToProcess < graph.transitionPartition.sets.length then
      splitByUniqueTransitions fuel graph.processNextSet
    else some graph

def nodeReplacement : ℕ :=
  graph.nodePartition.firstElementInSet (graph.nodePartition.setIndex nodeIndex)

end FullGraphPartition

section Seek

variable {p : ℕ → Bool} {firsts : List ℕ} {index i : ℕ}

theorem le_seek : index ≤ seek p firsts index := by
  fun_induction seek p firsts index with
  | case1 index _ _ ih => omega
  | case2 index _ _ => exact Nat.le_refl index
  | case3 index _ => exact Nat.le_refl index

theorem seek_le (h : index ≤ firsts.length) : seek p firsts index ≤ firsts.length := by
  fun_induction seek p firsts index with
  | case1 index hlt _ ih => exact ih hlt
  | case2 index _ _ => exact h
  | case3 index _ => exact h

theorem of_lt_seek (hle : index ≤ i) (hlt : i < seek p firsts index) : p (firsts.getD i 0) := by
  fun_induction seek p firsts index with
  | case1 index hidx hp ih =>
    by_cases heq : index = i
    · subst heq
      rwa [getD_eq_getElem _ 0 hidx]
    · exact ih (by omega) hlt
  | case2 index _ _ => omega
  | case3 index _ => omega

theorem not_seek (h : seek p firsts index < firsts.length) :
    p (firsts.getD (seek p firsts index) 0) = false := by
  fun_induction seek p firsts index with
  | case1 index _ _ ih => exact ih h
  | case2 index hidx hp =>
    rw [getD_eq_getElem _ 0 hidx]
    exact Bool.eq_false_iff.mpr hp
  | case3 index hidx => exact absurd h hidx

theorem getD_lt_getD (hsorted : firsts.Pairwise (· < ·)) {j : ℕ} (hij : i < j) (hj : j < firsts.length) :
    firsts.getD i 0 < firsts.getD j 0 := by
  rw [getD_eq_getElem _ 0 hj, getD_eq_getElem _ 0 (hij.trans hj)]
  exact pairwise_iff_getElem.mp hsorted i j _ hj hij

theorem getD_map_eq {α : Type*} (f : α → ℕ) {l : List α} (hi : i < l.length) :
    (l.map f).getD i 0 = f l[i] := by
  rw [getD_eq_getElem _ 0 (by simpa using hi), getElem_map]

theorem range'_split {a b c : ℕ} (hab : a ≤ b) (hbc : b ≤ c) :
    range' a (c - a) = range' a (b - a) ++ range' b (c - b) := by
  have hb : b = a + 1 * (b - a) := by omega
  have hc : c - a = b - a + (c - b) := by omega
  rw [hc, ← range'_append, ← hb]

/-- The singular ranges in a range are visited. -/
theorem iterateIntersections_eq (hsorted : firsts.Pairwise (· < ·)) {ranges : List (Range ℕ)}
    (hrngs : Sorted ranges) (hfst : ∀ range ∈ ranges, range.first ∈ firsts)
    (hidx : index ≤ firsts.length)
    (hbefore : ∀ range ∈ ranges, ∀ i < index, firsts.getD i 0 < range.first) :
    iterateIntersections firsts index ranges =
      (range' index (firsts.length - index)).filterMap fun i =>
        (lookup ranges (firsts.getD i 0)).map fun target => (i, target) := by
  induction ranges generalizing index with
  | nil => simp [iterateIntersections, lookup]
  | cons range rest ih =>
    obtain ⟨hnonempty, hnext, hrest⟩ := sorted_cons.mp hrngs
    obtain ⟨hmem, hfirstRest⟩ := forall_mem_cons.mp hfst
    rw [iterateIntersections]
    set first := seek (· != range.first) firsts index with hfirstDef
    set stop := seek (· ≤ range.last) firsts (first + 1) with hstopDef
    have hle : index ≤ first := le_seek
    have hstop : first + 1 ≤ stop := le_seek
    obtain ⟨j, hj, hjFirst⟩ := mem_iff_getElem.mp hmem
    rw [← getD_eq_getElem _ 0 hj] at hjFirst
    have hindexj : index ≤ j := by
      by_contra hlt
      have := hbefore range mem_cons_self j (by omega)
      omega
    have hfirstLe : first ≤ j := by
      by_contra hlt
      have hne := of_lt_seek hindexj (Nat.lt_of_not_le hlt)
      rw [hjFirst] at hne
      simp at hne
    have hfirstLt : first < firsts.length := by omega
    have hfirstEq : firsts.getD first 0 = range.first := by simpa using not_seek hfirstLt
    have hstopLe : stop ≤ firsts.length := seek_le hfirstLt
    have hlow : ∀ i, i < first → firsts.getD i 0 < range.first := fun i hi =>
      hfirstEq ▸ getD_lt_getD hsorted hi hfirstLt
    have hmiddle : ∀ i, first ≤ i → i < stop →
        range.first ≤ firsts.getD i 0 ∧ firsts.getD i 0 ≤ range.last := by
      intro i hi hlt
      by_cases heq : i = first
      · rw [heq, hfirstEq]
        exact ⟨le_rfl, hnonempty⟩
      · have hlast := of_lt_seek (by omega : first + 1 ≤ i) hlt
        have hmono := getD_lt_getD hsorted (by omega : first < i) (by omega)
        exact ⟨by omega, by simpa using hlast⟩
    have hhigh : ∀ i, stop ≤ i → i < firsts.length → range.last < firsts.getD i 0 := by
      intro i hi hlt
      have hstopLast : range.last < firsts.getD stop 0 := by
        simpa using not_seek (hi.trans_lt hlt : stop < firsts.length)
      by_cases heq : stop = i
      · exact heq ▸ hstopLast
      · exact hstopLast.trans (getD_lt_getD hsorted (by omega) hlt)
    have hbeforeRest : ∀ next ∈ rest, ∀ i < stop, firsts.getD i 0 < next.first := by
      intro next hnextMem i hi
      have hlast := hnext next hnextMem
      by_cases hlow' : i < first
      · have := hlow i hlow'
        omega
      · have := hmiddle i (not_lt.mp hlow') hi
        omega
    have hsplit : range' index (firsts.length - index) = range' index (first - index) ++
        (range' first (stop - first) ++ range' stop (firsts.length - stop)) := by
      rw [← range'_split (by omega) hstopLe, ← range'_split hle (by omega)]
    rw [hsplit, filterMap_append, filterMap_append, filterMap_eq_nil_iff.mpr, nil_append,
      ih hrest hfirstRest hstopLe hbeforeRest, ← filterMap_eq_map]
    · congr 1
      all_goals
        apply filterMap_congr
        intro i hi
        have hi' := mem_range'_1.mp hi
      · rw [lookup_cons, if_pos (hmiddle i hi'.1 (by omega))]
        rfl
      · have hlast := hhigh i hi'.1 (by omega)
        rw [lookup_cons, if_neg (by omega)]
    · intro i hi
      have hlt := hlow i (by have := mem_range'_1.mp hi; omega)
      rw [lookup_of_lt (hrngs.lt_first hlt)]
      rfl

end Seek

section Singular

variable {nodes : List DFANode} {ranges : MutableRangeList ℕ}

def Cuts (fine coarse : List (Range ℕ)) : Prop :=
  ∀ part ∈ fine, ∀ range ∈ coarse, Meet part range → Within part range

/-- Cutting further keeps the limits of ranges that were covered. -/
theorem Cuts.trans {fine middle coarse : List (Range ℕ)} (h : Cuts fine middle) (h' : Cuts middle coarse)
    (hfine : Sorted fine) (hcoarse : Sorted coarse)
    (hcovd : ∀ range ∈ coarse, ∀ c, range.Contains c → ∃ part ∈ middle, part.Contains c) :
    Cuts fine coarse := by
  intro part hpart range hrng hmeet
  have hpart' := hfine.nonempty part hpart
  have hrng' := hcoarse.nonempty range hrng
  obtain ⟨between, hbetween, hcont⟩ := hcovd range hrng (max part.first range.first)
    ⟨Nat.le_max_right _ _, by omega⟩
  have hwithin := h part hpart between hbetween ⟨by omega, by omega⟩
  have hwithin' := h' between hbetween range hrng ⟨by omega, by omega⟩
  exact ⟨hwithin'.1.trans hwithin.1, hwithin.2.trans hwithin'.2⟩

def countNodes (nodes : List DFANode) (c : ℕ) : ℕ :=
  nodes.countP fun node => (lookup node.transitions c).isSome

/-- The nodes extend a list by their ranges. -/
theorem foldlM_singular (hrngs : ranges.WellFormed) (hpos : ∀ c, lookup ranges.toList c ≠ some 0)
    (hkilled : ∀ node ∈ nodes, node.isKilled → node.transitions = [])
    (hsorted : ∀ node ∈ nodes, Sorted node.transitions) :
    ∃ ranges', nodes.foldlM (fun ranges node => if node.isKilled then some ranges
        else ranges.extend counterConverter node.transitions) ranges = some ranges' ∧
      ranges'.WellFormed ∧ (∀ c, lookup ranges'.toList c ≠ some 0) ∧
      (∀ c, (lookup ranges'.toList c).getD 0 = (lookup ranges.toList c).getD 0 + countNodes nodes c) ∧
      Cuts ranges'.toList ranges.toList ∧
      ∀ node ∈ nodes, Cuts ranges'.toList node.transitions := by
  induction nodes generalizing ranges with
  | nil =>
    refine ⟨ranges, rfl, hrngs, hpos, fun c => rfl, fun part hpart => ?_, nofun⟩
    apply within_of_lookup hrngs.sorted (hrngs.sorted.nonempty part hpart)
    exact fun c hc => (lookup_selves_iff hrngs.sorted).mpr ⟨hpart, hc⟩
  | cons node nodes ih =>
    obtain ⟨hempty, hkilled⟩ := forall_mem_cons.mp hkilled
    obtain ⟨hnode, hsorted⟩ := forall_mem_cons.mp hsorted
    obtain ⟨extended, hext, hwf, hlist⟩ := hrngs.extend counterConverter hnode
    have hget (c : ℕ) : lookup extended.toList c = combine counterConverter.convert
        counterConverter.extend (lookup ranges.toList c) (lookup node.transitions c) := by
      rw [hlist, lookup_merge hrngs.sorted hnode]
    have hpos' (c : ℕ) : lookup extended.toList c ≠ some 0 := by
      rw [hget]
      have hold := hpos c
      cases lookup node.transitions c with
      | none => rwa [combine_none_right]
      | some target => cases lookup ranges.toList c <;> simp [combine, counterConverter]
    obtain ⟨ranges', hfold, hwf', hpos', hcnt, hcuts, hnodes⟩ :=
      ih hwf hpos' hkilled hsorted
    have hcovd (c : ℕ) : (∃ range ∈ extended.toList, range.Contains c) ↔
        (∃ range ∈ ranges.toList, range.Contains c) ∨ ∃ other ∈ node.transitions, other.Contains c := by
      rw [hlist]
      exact exists_mem_merge_iff hrngs.sorted hnode
    refine ⟨ranges', ?_, hwf', hpos', fun c => ?_, ?_, ?_⟩
    · have hstep : (if node.isKilled then some ranges
          else ranges.extend counterConverter node.transitions) = some extended := by
        split_ifs with hdead
        · rw [← hext, hempty hdead]
          exact (if_pos rfl).symm
        · exact hext
      rw [foldlM_cons, hstep]
      exact hfold
    · rw [hcnt, hget, countNodes, countNodes, countP_cons]
      cases lookup node.transitions c with
      | none => simp
      | some target =>
        cases lookup ranges.toList c <;> simp [combine, counterConverter] <;> omega
    · refine hcuts.trans (fun part hpart => (within_of_mem_merge hrngs.sorted hnode
        (hlist ▸ hpart)).1) hwf'.sorted hrngs.sorted fun range hrng c hc => ?_
      exact (hcovd c).mpr (Or.inl ⟨range, hrng, hc⟩)
    · refine forall_mem_cons.mpr ⟨?_, hnodes⟩
      refine hcuts.trans (fun part hpart => (within_of_mem_merge hrngs.sorted hnode
        (hlist ▸ hpart)).2) hwf'.sorted hnode fun range hrng c hc => ?_
      exact (hcovd c).mpr (Or.inr ⟨range, hrng, hc⟩)

structure SingularRanges (nodes : List DFANode) (singular : List (Range ℕ)) : Prop where
  sorted : Sorted singular
  data_eq : ∀ range ∈ singular, range.data = countNodes nodes range.first
  data_pos : ∀ range ∈ singular, 0 < range.data
  lookup_eq : ∀ range ∈ singular, ∀ node ∈ nodes, ∀ c, range.Contains c →
    lookup node.transitions c = lookup node.transitions range.first
  covered : ∀ node ∈ nodes, ∀ c, lookup node.transitions c ≠ none → ∃ range ∈ singular, range.Contains c
  first_mem : ∀ node ∈ nodes, ∀ range ∈ node.transitions, range.first ∈ singular.map first

theorem exists_singularTransitions (hkilled : ∀ node ∈ nodes, node.isKilled → node.transitions = [])
    (hsorted : ∀ node ∈ nodes, Sorted node.transitions) :
    ∃ ranges, singularTransitions nodes = some ranges ∧ SingularRanges nodes ranges.toList := by
  have hnil : MutableRangeList.WellFormed ([] : MutableRangeList ℕ) :=
    ⟨⟨[], trivial, List.Perm.refl _, rfl⟩, Sorted.nil⟩
  obtain ⟨ranges, hfold, hwf, hpos, hcnt, -, hcuts⟩ := foldlM_singular hnil
    (fun _ => nofun) hkilled hsorted
  have hcnt' (c : ℕ) : (lookup ranges.toList c).getD 0 = countNodes nodes c := by
    rw [hcnt]
    exact zero_add _
  have hfst {range : Range ℕ} (hrng : range ∈ ranges.toList) : range.Contains range.first :=
    ⟨le_rfl, hwf.sorted.nonempty range hrng⟩
  have hmeets {range : Range ℕ} (hrng : range ∈ ranges.toList) {node : DFANode} (hnode : node ∈ nodes)
      {part : Range ℕ} (hpart : part ∈ node.transitions) {c : ℕ} (hc : range.Contains c)
      (hc' : part.Contains c) : Within range part :=
    hcuts node hnode range hrng part hpart ⟨by omega, by omega⟩
  have hcovd : ∀ node ∈ nodes, ∀ c, lookup node.transitions c ≠ none →
      ∃ range ∈ ranges.toList, range.Contains c := by
    intro node hnode c hget
    have hsome : 0 < countNodes nodes c :=
      countP_pos_iff.mpr ⟨node, hnode, Option.isSome_iff_ne_none.mpr hget⟩
    rw [← hcnt'] at hsome
    rw [← lookup_ne_none_iff]
    intro hnone
    rw [hnone] at hsome
    exact lt_irrefl 0 hsome
  refine ⟨ranges, hfold, hwf.sorted, ?_, ?_, ?_, hcovd, ?_⟩
  · intro range hrng
    rw [← hcnt', hwf.sorted.lookup_of_mem hrng (hfst hrng)]
    rfl
  · intro range hrng
    have hne := hpos range.first
    rw [hwf.sorted.lookup_of_mem hrng (hfst hrng)] at hne
    exact Nat.pos_of_ne_zero fun hzero => hne (congrArg some hzero)
  · intro range hrng node hnode c hc
    have hget {c c' : ℕ} (hc : range.Contains c) (hc' : range.Contains c') {target : ℕ}
        (htgt : lookup node.transitions c = some target) :
        lookup node.transitions c' = some target := by
      obtain ⟨part, hpart, hpartc, hdata⟩ := exists_of_lookup htgt
      have hwithin := hmeets hrng hnode hpart hc hpartc
      rw [← hdata]
      exact (hsorted node hnode).lookup_of_mem hpart
        ⟨hwithin.1.trans hc'.1, hc'.2.trans hwithin.2⟩
    cases hcase : lookup node.transitions range.first with
    | some target => exact hget (hfst hrng) hc hcase
    | none =>
      by_contra hsome
      obtain ⟨target, htgt⟩ := Option.ne_none_iff_exists'.mp hsome
      rw [hget hc (hfst hrng) htgt] at hcase
      cases hcase
  · intro node hnode part hpart
    have hfst' : part.Contains part.first :=
      ⟨le_rfl, (hsorted node hnode).nonempty part hpart⟩
    obtain ⟨range, hrng, hcont⟩ := hcovd node hnode part.first
      (lookup_ne_none_iff.mpr ⟨part, hpart, hfst'⟩)
    have hwithin := hmeets hrng hnode hpart hcont hfst'
    exact mem_map.mpr ⟨range, hrng, Nat.le_antisymm hcont.1 hwithin.1⟩

theorem SingularRanges.firsts_sorted {singular : List (Range ℕ)} (h : SingularRanges nodes singular) :
    (singular.map first).Pairwise (· < ·) := by
  rw [pairwise_map]
  refine List.Pairwise.imp_of_mem (fun hrng _ hlt => ?_) h.sorted.pairwise
  exact (h.sorted.nonempty _ hrng).trans_lt hlt

/-- The transitions of one node, by their labels. -/
theorem SingularRanges.iterateIntersections_eq {singular : List (Range ℕ)}
    (h : SingularRanges nodes singular) {node : DFANode} (hnode : node ∈ nodes)
    (hsorted : Sorted node.transitions) :
    iterateIntersections (singular.map first) 0 node.transitions =
      (range singular.length).filterMap fun i =>
        (lookup node.transitions ((singular.map first).getD i 0)).map fun target =>
          (i, target) := by
  rw [ContentExtensions.iterateIntersections_eq h.firsts_sorted hsorted (h.first_mem node hnode)
    (Nat.zero_le _) (fun _ _ _ hi => absurd hi (Nat.not_lt_zero _)), range_eq_range',
    length_map, Nat.sub_zero]

theorem mem_filterMap_pairs {f : ℕ → Option ℕ} {size : ℕ} {visit : ℕ × ℕ} :
    visit ∈ (range size).filterMap (fun i => (f i).map fun target => (i, target)) ↔
      visit.1 < size ∧ f visit.1 = some visit.2 := by
  rw [mem_filterMap]
  constructor
  · intro ⟨i, hi, hvisit⟩
    obtain ⟨target, htgt, rfl⟩ := Option.map_eq_some_iff.mp hvisit
    exact ⟨mem_range.mp hi, htgt⟩
  · intro ⟨hlt, htgt⟩
    exact ⟨visit.1, mem_range.mpr hlt, by rw [htgt]; rfl⟩

theorem map_fst_filterMap_pairs (f : ℕ → Option ℕ) (size : ℕ) :
    ((range size).filterMap fun i => (f i).map fun target => (i, target)).map Prod.fst =
      (range size).filter fun i => (f i).isSome := by
  rw [map_filterMap, ← filterMap_eq_filter]
  apply filterMap_congr
  intro i _
  cases hf : f i with
  | none => simp [Option.guard, hf]
  | some target => simp [Option.guard, hf]

theorem countP_eq_sum {α : Type*} (p : α → Bool) (l : List α) :
    l.countP p = (l.map fun a => if p a then 1 else 0).sum := by
  induction l with
  | nil => rfl
  | cons a l ih => rw [countP_cons, map_cons, sum_cons, ih, add_comm]

section Visit

variable {singular : List (Range ℕ)} (h : SingularRanges nodes singular)
  (hkilled : ∀ node ∈ nodes, node.isKilled = true → node.transitions = []) (hsorted : ∀ node ∈ nodes, Sorted node.transitions)

include h hkilled hsorted

/-- What is visited of one node. -/
theorem SingularRanges.visit_node {entry : DFANode × ℕ} (hent : entry.1 ∈ nodes) :
    (if entry.1.isKilled then []
      else (iterateIntersections (singular.map first) 0 entry.1.transitions).map fun visit =>
        (⟨entry.2, visit.1, visit.2⟩ : SingularTransition)) =
      ((range singular.length).filterMap fun i =>
        (lookup entry.1.transitions ((singular.map first).getD i 0)).map fun target =>
          (i, target)).map fun visit => ⟨entry.2, visit.1, visit.2⟩ := by
  rw [← h.iterateIntersections_eq hent (hsorted entry.1 hent)]
  split_ifs with hdead
  · rw [hkilled entry.1 hent hdead]
    rfl
  · rfl

/-- The transitions that are visited. -/
theorem SingularRanges.mem_visitTransitions {t : SingularTransition} :
    t ∈ visitTransitions (singular.map first) nodes ↔
      ∃ node range, nodes[t.source]? = some node ∧ singular[t.label]? = some range ∧
        lookup node.transitions range.first = some t.target := by
  have hlabel {i : ℕ} (hi : i < singular.length) :
      singular[i]? = some singular[i] ∧ (singular.map first).getD i 0 = singular[i].first :=
    ⟨getElem?_eq_getElem hi, getD_map_eq first hi⟩
  rw [visitTransitions, mem_flatMap]
  constructor
  · intro ⟨entry, hent, hmem⟩
    have hnode := mem_zipIdx_iff_getElem?.mp hent
    rw [h.visit_node hkilled hsorted (mem_of_getElem? hnode)] at hmem
    obtain ⟨visit, hvisit, rfl⟩ := mem_map.mp hmem
    obtain ⟨hlt, hget⟩ := mem_filterMap_pairs.mp hvisit
    obtain ⟨hrng, hfst⟩ := hlabel hlt
    exact ⟨entry.1, singular[visit.1], hnode, hrng, hfst ▸ hget⟩
  · intro ⟨node, range, hnode, hrng, hget⟩
    refine ⟨(node, t.source), mem_zipIdx_iff_getElem?.mpr hnode, ?_⟩
    rw [h.visit_node hkilled hsorted (mem_of_getElem? hnode)]
    obtain ⟨hlt, heq⟩ := List.getElem?_eq_some_iff.mp hrng
    refine mem_map.mpr ⟨(t.label, t.target), ?_, rfl⟩
    exact mem_filterMap_pairs.mpr ⟨hlt, by rw [(hlabel hlt).2, heq]; exact hget⟩

/-- A node has at most one transition of each label. -/
theorem SingularRanges.pairwise_visitTransitions :
    (visitTransitions (singular.map first) nodes).Pairwise fun t other =>
      ¬ (t.source = other.source ∧ t.label = other.label) := by
  rw [visitTransitions, pairwise_flatMap]
  constructor
  · intro entry hent
    have hnode := mem_zipIdx_iff_getElem?.mp hent
    rw [h.visit_node hkilled hsorted (mem_of_getElem? hnode), pairwise_map]
    have hnodup : (((range singular.length).filterMap fun i =>
        (lookup entry.1.transitions ((singular.map first).getD i 0)).map fun target =>
          (i, target)).map Prod.fst).Nodup := by
      rw [map_fst_filterMap_pairs]
      exact nodup_range.filter _
    exact (pairwise_map.mp hnodup).imp fun hne hand => hne hand.2
  · rw [pairwise_iff_getElem]
    intro i j hi hj hij t ht other hoth hand
    have hsrc {k : ℕ} (hk : k < nodes.zipIdx.length) {t : SingularTransition}
        (hmem : t ∈ if (nodes.zipIdx[k]).1.isKilled then []
          else (iterateIntersections (singular.map first) 0 (nodes.zipIdx[k]).1.transitions).map
            fun visit => ⟨(nodes.zipIdx[k]).2, visit.1, visit.2⟩) : t.source = k := by
      split_ifs at hmem
      · cases hmem
      · obtain ⟨visit, -, rfl⟩ := mem_map.mp hmem
        simp
    rw [hsrc hi ht, hsrc hj hoth] at hand
    omega

/-- The number of transitions of a label. -/
theorem SingularRanges.count_label {label : ℕ} (hlabel : label < singular.length) :
    ((visitTransitions (singular.map first) nodes).map SingularTransition.label).count label =
      (singular.map data).getD label 0 := by
  have hrng := getElem_mem hlabel
  rw [getD_map_eq _ hlabel, h.data_eq _ hrng, visitTransitions, map_flatMap, count_flatMap,
    countNodes, countP_eq_sum]
  conv_rhs => rw [← zipIdx_map_fst 0 nodes, map_map]
  congr 1
  apply map_congr_left
  intro entry hent
  have hnode := mem_of_getElem? (mem_zipIdx_iff_getElem?.mp hent)
  simp only [Function.comp_apply]
  rw [h.visit_node hkilled hsorted hnode, map_map]
  change count label (map Prod.fst _) = _
  rw [map_fst_filterMap_pairs, (nodup_range.filter _).count]
  simp only [mem_filter, mem_range, hlabel, true_and]
  rw [getD_map_eq _ hlabel]

end Visit

end Singular

section Fill

abbrev targets (transitions : List SingularTransition) : List ℕ :=
  transitions.map SingularTransition.target

abbrev labels (transitions : List SingularTransition) : List ℕ :=
  transitions.map SingularTransition.label

variable {transitions : List SingularTransition} {size : ℕ}

/-- The transitions to each node are counted. -/
theorem getD_countIncoming {node : ℕ} (hnode : node < size) :
    (countIncoming size transitions).getD node 0 =
      (targets transitions).count node := by
  suffices hcounts : ∀ counts : List ℕ, node < counts.length → (transitions.foldl (fun counts t =>
        counts.set t.target (counts.getD t.target 0 + 1)) counts).getD node 0 =
        counts.getD node 0 + (targets transitions).count node by
    have hzero : (replicate size 0).getD node 0 = 0 := getD_replicate 0 hnode
    have h := hcounts (replicate size 0) (by simpa using hnode)
    rwa [hzero, zero_add] at h
  induction transitions with
  | nil => exact fun _ _ => rfl
  | cons t transitions ih =>
    intro counts hlt
    rw [foldl_cons, ih _ (by rwa [length_set]), Partition.getD_set, targets, targets, map_cons, count_cons]
    by_cases heq : t.target = node
    · subst heq
      simp only [hlt, true_and, if_true, beq_self_eq_true]
      omega
    · simp [heq]

theorem length_countIncoming : (countIncoming size transitions).length = size := by
  suffices hlen : ∀ counts : List ℕ, (transitions.foldl (fun counts t =>
      counts.set t.target (counts.getD t.target 0 + 1)) counts).length = counts.length by
    exact (hlen _).trans length_replicate
  induction transitions with
  | nil => exact fun _ => rfl
  | cons t transitions ih => exact fun counts => (ih _).trans length_set

structure Filled (starts : List ℕ) (sets : List SetDescriptor) (size : ℕ)
    (transitions : List SingularTransition) (k : ℕ) (tables : TransitionTables) : Prop where
  sizes : ∀ node < size, tables.flattenedTransitionsSizePerNode.getD node 0 =
    ((transitions.map SingularTransition.target).take k).count node
  length_sizes : tables.flattenedTransitionsSizePerNode.length = size
  offsets : ∀ label < sets.length, tables.transitionPerRangeOffset.getD label 0 =
    ((transitions.map SingularTransition.label).take k).count label
  length_offsets : tables.transitionPerRangeOffset.length = sets.length
  length_flattened : tables.flattenedTransitions.length = transitions.length
  sets_eq : tables.transitionPartition.sets = sets
  length_elements : tables.transitionPartition.partitionedElements.length = transitions.length
  length_positions :
    tables.transitionPartition.elementPositionInPartitionedNodes.length = transitions.length
  length_map : tables.transitionPartition.elementToSetMap.length = transitions.length
  marked_eq : tables.transitionPartition.setsMarkedInCurrentGeneration = []
  stored : ∀ (j : ℕ) (hj : j < transitions.length), j < k →
    tables.flattenedTransitions.getD (place (transitions.map SingularTransition.target) j) 0 =
        transitions[j].source ∧
      tables.transitionPartition.element (place (transitions.map SingularTransition.label) j) =
        place (transitions.map SingularTransition.target) j ∧
      tables.transitionPartition.position (place (transitions.map SingularTransition.target) j) =
        place (transitions.map SingularTransition.label) j ∧
      tables.transitionPartition.setIndex (place (transitions.map SingularTransition.target) j) =
        transitions[j].label

theorem count_take_succ {keys : List ℕ} {k key : ℕ} (hk : k < keys.length) :
    (keys.take (k + 1)).count key = (keys.take k).count key + if keys.getD k 0 = key then 1 else 0 := by
  rw [take_add_one, getElem?_eq_getElem hk, count_append, getD_eq_getElem _ 0 hk]
  congr 1
  simp [count_singleton]

variable (f : SingularTransition → ℕ)

theorem place_map_lt {k : ℕ} (hk : k < transitions.length) :
    place (transitions.map f) k < transitions.length := by
  have hlt : k < (transitions.map f).length := by rwa [length_map]
  exact (place_lt hlt).trans_eq (length_map _)

theorem place_map_injective {j k : ℕ} (hj : j < transitions.length) (hk : k < transitions.length)
    (h : place (transitions.map f) j = place (transitions.map f) k) : j = k :=
  place_injective (by rwa [length_map]) (by rwa [length_map]) h

theorem exists_place_map {i : ℕ} (hi : i < transitions.length) :
    ∃ k < transitions.length, place (transitions.map f) k = i := by
  obtain ⟨k, hk, hplace⟩ := @exists_place (transitions.map f) i (by rwa [length_map])
  exact ⟨k, by rwa [length_map] at hk, hplace⟩

theorem mem_bucket_map_iff {bucket i : ℕ} : offset (transitions.map f) bucket ≤ i ∧
        i < offset (transitions.map f) bucket + (transitions.map f).count bucket ↔
      ∃ (k : ℕ) (hk : k < transitions.length), f transitions[k] = bucket ∧
        place (transitions.map f) k = i := by
  rw [mem_bucket_iff]
  constructor
  · intro ⟨k, hk, hkey, hplace⟩
    rw [length_map] at hk
    exact ⟨k, hk, (getD_map_eq f hk).symm.trans hkey, hplace⟩
  · intro ⟨k, hk, hkey, hplace⟩
    exact ⟨k, by rwa [length_map], (getD_map_eq f hk).trans hkey, hplace⟩

section FillStep

variable {starts : List ℕ} {sets : List SetDescriptor} {tables : TransitionTables} {k : ℕ}
  (htargets : ∀ t ∈ transitions, t.target < size)
  (hlabels : ∀ t ∈ transitions, t.label < sets.length)
  (hstarts : ∀ node < size, starts.getD node 0 =
    offset (targets transitions) node)
  (hsets : ∀ label < sets.length, (sets.getD label ⟨0, 0, 0⟩).start =
    offset (labels transitions) label)

include htargets hlabels hstarts hsets

/-- One more transition is stored. -/
theorem Filled.fill (h : Filled starts sets size transitions k tables) (hk : k < transitions.length) :
    Filled starts sets size transitions (k + 1) (tables.fill starts transitions[k]) := by
  have hmem := getElem_mem hk
  have htgt := htargets _ hmem
  have hlabel := hlabels _ hmem
  have htargetKey := getD_map_eq SingularTransition.target hk
  have hlabelKey := getD_map_eq SingularTransition.label hk
  have hposn : starts.getD transitions[k].target 0 +
      tables.flattenedTransitionsSizePerNode.getD transitions[k].target 0 =
        place (targets transitions) k := by
    rw [hstarts _ htgt, h.sizes _ htgt, place, htargetKey]
  have hinPartition : (tables.transitionPartition.descriptor transitions[k].label).start +
      tables.transitionPerRangeOffset.getD transitions[k].label 0 =
        place (labels transitions) k := by
    rw [Partition.descriptor, h.sets_eq, hsets _ hlabel, h.offsets _ hlabel, place, hlabelKey]
  have hplace : place (targets transitions) k < transitions.length :=
    place_map_lt _ hk
  have hplace' : place (labels transitions) k < transitions.length :=
    place_map_lt _ hk
  refine ⟨?_, ?_, ?_, ?_, ?_, h.sets_eq, ?_, ?_, ?_, h.marked_eq, ?_⟩
  · intro node hnode
    rw [count_take_succ (by simpa using hk), htargetKey, ← h.sizes node hnode]
    simp only [TransitionTables.fill, Partition.getD_set, h.length_sizes]
    by_cases heq : transitions[k].target = node
    · rw [if_pos ⟨heq, htgt⟩, if_pos heq, heq]
    · rw [if_neg (fun hand => heq hand.1), if_neg heq, add_zero]
  · exact length_set.trans h.length_sizes
  · intro label hlabel'
    rw [count_take_succ (by simpa using hk), hlabelKey, ← h.offsets label hlabel']
    simp only [TransitionTables.fill, Partition.getD_set, h.length_offsets]
    by_cases heq : transitions[k].label = label
    · rw [if_pos ⟨heq, hlabel⟩, if_pos heq, heq]
    · rw [if_neg (fun hand => heq hand.1), if_neg heq, add_zero]
  · exact length_set.trans h.length_offsets
  · exact length_set.trans h.length_flattened
  · exact length_set.trans h.length_elements
  · exact length_set.trans h.length_positions
  · exact length_set.trans h.length_map
  · intro j hj hjk
    simp only [TransitionTables.fill, Partition.setElementUnchecked, Partition.element,
      Partition.position, Partition.setIndex, hposn, hinPartition, Partition.getD_set,
      h.length_flattened, h.length_elements, h.length_positions, h.length_map, hplace, hplace', and_true]
    by_cases heq : j = k
    · subst heq
      simp
    · obtain ⟨hsrc, helem, hpos, hidx⟩ := h.stored j hj (by omega)
      have hne : place (targets transitions) k ≠
          place (targets transitions) j := fun hplaces =>
        heq (place_map_injective _ hj hk hplaces.symm)
      have hne' : place (labels transitions) k ≠
          place (labels transitions) j := fun hplaces =>
        heq (place_map_injective _ hj hk hplaces.symm)
      rw [if_neg hne, if_neg hne', if_neg hne, if_neg hne]
      exact ⟨hsrc, helem, hpos, hidx⟩

/-- All transitions are stored. -/
theorem Filled.foldl (h : Filled starts sets size transitions 0 tables) :
    Filled starts sets size transitions transitions.length
      (transitions.foldl (TransitionTables.fill starts) tables) := by
  suffices hprefix : ∀ k ≤ transitions.length, Filled starts sets size transitions k
      ((transitions.take k).foldl (TransitionTables.fill starts) tables) by
    have hall := hprefix transitions.length le_rfl
    rwa [take_length] at hall
  intro k
  induction k with
  | zero => exact fun _ => h
  | succ k ih =>
    intro hk
    have hfill := (ih (Nat.le_of_succ_le hk)).fill htargets hlabels hstarts hsets hk
    rw [take_add_one, getElem?_eq_getElem hk, foldl_append]
    exact hfill

end FillStep

theorem Partition.addSets_eq (sizes : List ℕ) : Partition.addSets sizes = { Partition.empty with
      sets := (sizes.zip (accumulate 0 sizes)).map fun entry => ⟨entry.2, entry.1, 0⟩ } := by
  suffices hfold : ∀ (entries : List (ℕ × ℕ)) (partition : Partition),
      entries.foldl (fun partition entry => partition.addSetUnchecked entry.2 entry.1) partition =
        { partition with sets := partition.sets ++ entries.map fun entry => ⟨entry.2, entry.1, 0⟩ } by
    exact hfold _ _
  intro entries
  induction entries with
  | nil =>
    intro partition
    simp
  | cons entry entries ih =>
    intro partition
    rw [foldl_cons, ih]
    simp [Partition.addSetUnchecked]

theorem Partition.length_addSets (sizes : List ℕ) :
    (Partition.addSets sizes).sets.length = sizes.length := by
  rw [addSets_eq]
  simp [length_accumulate]

theorem Partition.descriptor_addSets {sizes : List ℕ} {label : ℕ} (h : label < sizes.length) :
    (Partition.addSets sizes).sets.getD label ⟨0, 0, 0⟩ =
      ⟨(accumulate 0 sizes).getD label 0, sizes.getD label 0, 0⟩ := by
  have hlen := length_accumulate 0 sizes
  rw [addSets_eq, getD_eq_getElem _ _ (by simpa [hlen] using h), getElem_map,
    getElem_zip, getD_eq_getElem _ 0 (by rwa [hlen]), getD_eq_getElem _ 0 h]

/-- When all transitions are stored, the partition has one set for each label. -/
theorem Filled.settled {starts sizes : List ℕ} {tables : TransitionTables}
    (h : Filled starts (Partition.addSets sizes).sets size transitions transitions.length tables)
    (hsizes : ∀ label < sizes.length,
      sizes.getD label 0 = (labels transitions).count label)
    (hpos : ∀ label < sizes.length, 0 < sizes.getD label 0)
    (hlabels : ∀ t ∈ transitions, t.label < sizes.length) :
    tables.transitionPartition.Settled transitions.length := by
  have hlen : tables.transitionPartition.sets.length = sizes.length := by
    rw [h.sets_eq, Partition.length_addSets]
  have hdesc {s : ℕ} (hs : s < sizes.length) : tables.transitionPartition.descriptor s =
      ⟨offset (labels transitions) s,
        (labels transitions).count s, 0⟩ := by
    rw [Partition.descriptor, h.sets_eq, Partition.descriptor_addSets hs,
      accumulate_eq_offset hsizes hs, hsizes s hs]
  have hstore {j : ℕ} (hj : j < transitions.length) := h.stored j hj hj
  have hsetIndex {e : ℕ} (he : e < transitions.length) :
      tables.transitionPartition.setIndex e < sizes.length := by
    obtain ⟨j, hj, rfl⟩ := exists_place_map SingularTransition.target he
    rw [(hstore hj).2.2.2]
    exact hlabels _ (getElem_mem hj)
  have hvalid : tables.transitionPartition.Valid transitions.length := by
    refine ⟨h.length_elements, h.length_positions, h.length_map, ?_, ?_, ?_, ?_, ?_, ?_, ?_, ?_, ?_⟩
    · intro e he
      obtain ⟨j, hj, rfl⟩ := exists_place_map SingularTransition.target he
      rw [(hstore hj).2.2.1]
      exact place_map_lt _ hj
    · intro i hi
      obtain ⟨j, hj, rfl⟩ := exists_place_map SingularTransition.label hi
      rw [(hstore hj).2.1]
      exact place_map_lt _ hj
    · intro e he
      obtain ⟨j, hj, rfl⟩ := exists_place_map SingularTransition.target he
      rw [(hstore hj).2.2.1, (hstore hj).2.1]
    · intro i hi
      obtain ⟨j, hj, rfl⟩ := exists_place_map SingularTransition.label hi
      rw [(hstore hj).2.1, (hstore hj).2.2.1]
    · intro e he
      rw [hlen]
      exact hsetIndex he
    · intro e s he hs
      rw [hlen] at hs
      obtain ⟨j, hj, rfl⟩ := exists_place_map SingularTransition.target he
      obtain ⟨-, -, hposn, hidx⟩ := hstore hj
      rw [hidx, hposn, hdesc hs]
      refine Iff.trans ?_ (mem_bucket_map_iff SingularTransition.label).symm
      constructor
      · intro hlabel
        exact ⟨j, hj, hlabel, rfl⟩
      · rintro ⟨k, hk, hlabel, hplace⟩
        have heq := place_map_injective _ hk hj hplace
        subst heq
        exact hlabel
    · intro s hs
      rw [hlen] at hs
      rw [hdesc hs, SetDescriptor.stop, ← offset_succ]
      exact offset_le_length.trans_eq (List.length_map _)
    · intro s hs
      rw [hlen] at hs
      rw [hdesc hs]
      exact (hpos s hs).trans_eq (hsizes s hs)
    · intro s hs
      rw [hlen] at hs
      rw [hdesc hs]
      exact Nat.zero_le _
  refine ⟨hvalid, h.marked_eq, fun hx => Nat.not_lt.mpr ?_⟩
  rw [SetDescriptor.indexAfterMarkedElements, hdesc (hsetIndex hx), add_zero]
  have hmem := (hvalid.position_mem hx).1
  rwa [hdesc (hsetIndex hx)] at hmem

end Fill

structure ValidTransitions (size : ℕ) (transitions : List SingularTransition) : Prop where
  source_lt : ∀ transition ∈ transitions, transition.source < size
  target_lt : ∀ transition ∈ transitions, transition.target < size
  pairwise : transitions.Pairwise fun transition other =>
    ¬ (transition.source = other.source ∧ transition.label = other.label)

structure FullGraphPartition.Layout (graph : FullGraphPartition) (size : ℕ)
    (transitions : List SingularTransition) : Prop where
  length_eq : graph.flattenedTransitions.length = transitions.length
  source_eq : ∀ (j : ℕ) (hj : j < transitions.length),
    graph.flattenedTransitions.getD (place (transitions.map SingularTransition.target) j) 0 =
      transitions[j].source
  mem_incoming_iff : ∀ node < size, ∀ position, position ∈ graph.incomingTransitions node ↔
    ∃ (j : ℕ) (hj : j < transitions.length), transitions[j].target = node ∧
      place (transitions.map SingularTransition.target) j = position

structure FullGraphPartition.Created (graph : FullGraphPartition) (dfa : DFA)
    (singular : List (Range ℕ)) (transitions : List SingularTransition) : Prop where
  singularRanges : SingularRanges dfa.nodes singular
  mem_iff : ∀ transition, transition ∈ transitions ↔ ∃ node range,
    dfa.nodes[transition.source]? = some node ∧ singular[transition.label]? = some range ∧
      lookup node.transitions range.first = some transition.target
  valid : ValidTransitions dfa.nodes.length transitions
  layout : graph.Layout dfa.nodes.length transitions
  nodePartition_eq : graph.nodePartition = Partition.initialized dfa.nodes.length
  settled : graph.transitionPartition.Settled transitions.length
  setIndex_eq : ∀ (j : ℕ) (hj : j < transitions.length), graph.transitionPartition.setIndex
    (place (transitions.map SingularTransition.target) j) = transitions[j].label
  next_eq : graph.nextTransitionSetToProcess = 0

theorem sum_countIncoming {size : ℕ} {transitions : List SingularTransition} (h : ∀ t ∈ transitions, t.target < size) :
    (countIncoming size transitions).sum = transitions.length := by
  have hlen : (countIncoming size transitions).length = size := length_countIncoming
  have hsum : ((countIncoming size transitions).take size).sum =
      offset (targets transitions) size :=
    sum_take_eq_offset (fun b hb => getD_countIncoming (hlen ▸ hb)) hlen.ge
  rw [take_of_length_le hlen.le] at hsum
  rw [hsum, offset, countP_eq_length.mpr, length_map]
  intro target htgt
  obtain ⟨t, ht, rfl⟩ := mem_map.mp htgt
  simpa using h t ht

/-- The partitions of a DFA without killed nodes are created. -/
theorem FullGraphPartition.exists_create {dfa : DFA} (hdfa : dfa.WellFormed)
    (hkilled : ∀ node ∈ dfa.nodes, node.isKilled → node.transitions = []) :
    ∃ graph singular transitions, create dfa = some graph ∧
      graph.Created dfa singular transitions := by
  obtain ⟨ranges, hrngs, hsing⟩ := exists_singularTransitions hkilled hdfa.sorted
  set singular := ranges.toList with hsingularDef
  set transitions := visitTransitions (singular.map first) dfa.nodes with htrans
  have hmem : ∀ t, t ∈ transitions ↔ ∃ node range,
      dfa.nodes[t.source]? = some node ∧ singular[t.label]? = some range ∧
        lookup node.transitions range.first = some t.target :=
    fun _ => hsing.mem_visitTransitions hkilled hdfa.sorted
  have hsrc : ∀ t ∈ transitions, t.source < dfa.nodes.length := by
    intro t ht
    obtain ⟨node, -, hnode, -, -⟩ := (hmem t).mp ht
    exact (List.getElem?_eq_some_iff.mp hnode).1
  have htgt : ∀ t ∈ transitions, t.target < dfa.nodes.length := by
    intro t ht
    obtain ⟨node, range, hnode, -, hget⟩ := (hmem t).mp ht
    obtain ⟨part, hpart, -, hdata⟩ := exists_of_lookup hget
    exact hdata ▸ hdfa.targets node (mem_of_getElem? hnode) part hpart
  have hlabel : ∀ t ∈ transitions, t.label < (singular.map data).length := by
    intro t ht
    obtain ⟨-, range, -, hrng, -⟩ := (hmem t).mp ht
    rw [length_map]
    exact (List.getElem?_eq_some_iff.mp hrng).1
  have hsizes : ∀ label < (singular.map data).length, (singular.map data).getD label 0 =
      (labels transitions).count label := by
    intro label hlt
    rw [length_map] at hlt
    exact (hsing.count_label hkilled hdfa.sorted hlt).symm
  have hpos : ∀ label < (singular.map data).length, 0 < (singular.map data).getD label 0 := by
    intro label hlt
    rw [getD_eq_getElem _ 0 hlt, getElem_map]
    exact hsing.data_pos _ (getElem_mem _)
  set counts := countIncoming dfa.nodes.length transitions with hcounts
  have hcnt : ∀ node < counts.length, counts.getD node 0 =
      (targets transitions).count node :=
    fun node hnode => getD_countIncoming (hnode.trans_eq length_countIncoming)
  have hstarts : ∀ node < dfa.nodes.length, (accumulate 0 counts).getD node 0 =
      offset (targets transitions) node :=
    fun node hnode => accumulate_eq_offset hcnt (hnode.trans_eq length_countIncoming.symm)
  have hlen := Partition.length_addSets (singular.map data)
  have hsets : ∀ label < (Partition.addSets (singular.map data)).sets.length,
      ((Partition.addSets (singular.map data)).sets.getD label ⟨0, 0, 0⟩).start =
        offset (labels transitions) label := by
    intro label hlt
    rw [hlen] at hlt
    rw [Partition.descriptor_addSets hlt, accumulate_eq_offset hsizes hlt]
  have hzero (count node : ℕ) : (replicate count 0).getD node 0 = 0 := by
    rw [getD_eq_getElem?_getD, getElem?_replicate]
    split_ifs <;> rfl
  have hsum : counts.sum = transitions.length := sum_countIncoming htgt
  have hfilled : Filled (accumulate 0 counts) (Partition.addSets (singular.map data)).sets
      dfa.nodes.length transitions 0
      { flattenedTransitionsSizePerNode := replicate dfa.nodes.length 0
        flattenedTransitions := replicate counts.sum 0
        transitionPerRangeOffset :=
          replicate (Partition.addSets (singular.map data)).sets.length 0
        transitionPartition := (Partition.addSets (singular.map data)).reserveUninitializedCapacity
          counts.sum } := by
    refine ⟨fun node _ => hzero _ _, length_replicate, fun label _ => hzero _ _,
      length_replicate, ?_, rfl, ?_, ?_, ?_, ?_, fun _ _ hlt => absurd hlt (Nat.not_lt_zero _)⟩
    · rw [length_replicate, hsum]
    · exact length_replicate.trans hsum
    · exact length_replicate.trans hsum
    · exact length_replicate.trans hsum
    · rw [Partition.addSets_eq]
      rfl
  have hfinal := hfilled.foldl htgt (fun t ht =>
    (hlabel t ht).trans_eq hlen.symm) hstarts hsets
  refine ⟨_, singular, transitions, by rw [create, hrngs]; rfl, hsing, hmem, ⟨hsrc, htgt,
    hsing.pairwise_visitTransitions hkilled hdfa.sorted⟩, ⟨hfinal.length_flattened, ?_, ?_⟩, rfl,
    hfinal.settled hsizes hpos hlabel, ?_, rfl⟩
  · intro j hj
    exact (hfinal.stored j hj hj).1
  · intro node hnode position
    rw [incomingTransitions, mem_range'_1, hstarts node hnode, hfinal.sizes node hnode,
      take_of_length_le (length_map _).le]
    exact mem_bucket_map_iff SingularTransition.target
  · intro j hj
    exact (hfinal.stored j hj hj).2.2.2

end WebKit.ContentExtensions
