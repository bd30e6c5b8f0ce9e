import WebKit.Foundation.HashMaps
import WebKit.Foundation.Tilings

/-!
The free space of the allocator of executable memory. It is a set of nodes that are found by their
size, by their first address and by the address behind them; freed space is joined with the nodes
on both sides of it.
-/

namespace WebKit

open List HashMaps Tilings
open Function (update update_self update_of_ne)
open Tilings.Span (stop)

abbrev NodeRef := ℕ

abbrev FreeSpaceNode := Span

abbrev MetaAllocatorHandle := Span

/-- The search of the red-black tree for the least size that is not smaller than a key. Among nodes
of one size the shape of the tree decides, so nothing is said about that. -/
structure SizeSearch where
  findLeastGreaterThanOrEqual : List (NodeRef × ℕ) → ℕ → Option NodeRef
  of_some : ∀ {nodes key n}, findLeastGreaterThanOrEqual nodes key = some n →
    ∃ size, (n, size) ∈ nodes ∧ key ≤ size ∧ ∀ other ∈ nodes, key ≤ other.2 → size ≤ other.2
  of_none : ∀ {nodes key}, findLeastGreaterThanOrEqual nodes key = none →
    ∀ other ∈ nodes, other.2 < key

def SizeSearch.first : SizeSearch where
  findLeastGreaterThanOrEqual nodes key :=
    ((nodes.filter fun node => key ≤ node.2).argmin Prod.snd).map Prod.fst
  of_some := by
    intro nodes key n hfind
    obtain ⟨⟨m, size⟩, hargmin, rfl⟩ := Option.map_eq_some_iff.mp hfind
    obtain ⟨hmem, hfits⟩ := mem_filter.mp (argmin_mem hargmin)
    refine ⟨size, hmem, of_decide_eq_true hfits, fun other hother hle => ?_⟩
    exact le_of_mem_argmin (mem_filter.mpr ⟨hother, decide_eq_true hle⟩) hargmin
  of_none := by
    intro nodes key hfind other hother
    rw [Option.map_eq_none_iff, argmin_eq_none, filter_eq_nil_iff] at hfind
    exact not_le.mp fun hle => hfind other hother (decide_eq_true hle)

structure FreeSpace where
  node : NodeRef → FreeSpaceNode
  nextNode : NodeRef
  freeSpaceSizeMap : List NodeRef
  freeSpaceStartAddressMap : HashMap ℕ NodeRef
  freeSpaceEndAddressMap : HashMap ℕ NodeRef

namespace FreeSpace

def empty : FreeSpace := ⟨fun _ => ⟨0, 0⟩, 0, [], ∅, ∅⟩

def spans (s : FreeSpace) : List Span := s.freeSpaceSizeMap.map s.node

def prefersLeft (logPageSize sizeInBytes : ℕ) (node : FreeSpaceNode) : Bool :=
  let firstPage := node.start >>> logPageSize
  let lastPage := (node.start + node.size - 1) >>> logPageSize
  let lastPageForLeftAllocation := (node.start + sizeInBytes - 1) >>> logPageSize
  let firstPageForRightAllocation := (node.start + node.size - sizeInBytes) >>> logPageSize
  lastPageForLeftAllocation - firstPage + 1 ≤ lastPage - firstPageForRightAllocation + 1

def findAndRemoveFreeSpace (search : SizeSearch) (logPageSize : ℕ) (s : FreeSpace) (sizeInBytes : ℕ) :
    Option ℕ × FreeSpace :=
  match search.findLeastGreaterThanOrEqual
    (s.freeSpaceSizeMap.map fun n => (n, (s.node n).size)) sizeInBytes with
  | none => (none, s)
  | some n =>
    let node := s.node n
    let freeSpaceSizeMap := s.freeSpaceSizeMap.erase n
    if node.size = sizeInBytes then
      (some node.start, { s with
        freeSpaceSizeMap := freeSpaceSizeMap
        freeSpaceStartAddressMap := s.freeSpaceStartAddressMap.erase node.start
        freeSpaceEndAddressMap := s.freeSpaceEndAddressMap.erase node.stop })
    else if prefersLeft logPageSize sizeInBytes node then
      let slid : FreeSpaceNode := ⟨node.start + sizeInBytes, node.size - sizeInBytes⟩
      (some node.start, { s with
        node := update s.node n slid
        freeSpaceSizeMap := n :: freeSpaceSizeMap
        freeSpaceStartAddressMap := add (s.freeSpaceStartAddressMap.erase node.start) slid.start n })
    else
      let result := node.start + node.size - sizeInBytes
      (some result, { s with
        node := update s.node n ⟨node.start, node.size - sizeInBytes⟩
        freeSpaceSizeMap := n :: freeSpaceSizeMap
        freeSpaceEndAddressMap := add (s.freeSpaceEndAddressMap.erase node.stop) result n })

def addFreeSpace (s : FreeSpace) (start sizeInBytes : ℕ) : FreeSpace :=
  let stop := start + sizeInBytes
  match s.freeSpaceEndAddressMap.lookup start, s.freeSpaceStartAddressMap.lookup stop with
  | some leftNode, some rightNode =>
    let left := s.node leftNode
    let rightSize := (s.node rightNode).size
    let rightEnd := stop + rightSize
    { s with
      node := update s.node leftNode ⟨left.start, left.size + (sizeInBytes + rightSize)⟩
      freeSpaceSizeMap := leftNode :: (s.freeSpaceSizeMap.erase leftNode).erase rightNode
      freeSpaceStartAddressMap := s.freeSpaceStartAddressMap.erase stop
      freeSpaceEndAddressMap :=
        add ((s.freeSpaceEndAddressMap.erase left.stop).erase rightEnd) rightEnd leftNode }
  | some leftNode, none =>
    let left := s.node leftNode
    { s with
      node := update s.node leftNode ⟨left.start, left.size + sizeInBytes⟩
      freeSpaceSizeMap := leftNode :: s.freeSpaceSizeMap.erase leftNode
      freeSpaceEndAddressMap := add (s.freeSpaceEndAddressMap.erase left.stop) stop leftNode }
  | none, some rightNode =>
    let right := s.node rightNode
    { s with
      node := update s.node rightNode ⟨start, right.size + sizeInBytes⟩
      freeSpaceSizeMap := rightNode :: s.freeSpaceSizeMap.erase rightNode
      freeSpaceStartAddressMap := add (s.freeSpaceStartAddressMap.erase stop) start rightNode }
  | none, none =>
    { node := update s.node s.nextNode ⟨start, sizeInBytes⟩
      nextNode := s.nextNode + 1
      freeSpaceSizeMap := s.nextNode :: s.freeSpaceSizeMap
      freeSpaceStartAddressMap := add s.freeSpaceStartAddressMap start s.nextNode
      freeSpaceEndAddressMap := add s.freeSpaceEndAddressMap stop s.nextNode }

end FreeSpace

section Indexes

def IndexedBy (field : Span → ℕ) (nodes : List NodeRef) (node : NodeRef → FreeSpaceNode)
    (map : HashMap ℕ NodeRef) : Prop :=
  ∀ a n, map.lookup a = some n ↔ n ∈ nodes ∧ field (node n) = a

variable {field : Span → ℕ} {nodes : List NodeRef} {node : NodeRef → FreeSpaceNode}
  {map : HashMap ℕ NodeRef} {n : NodeRef} {span : Span}

theorem IndexedBy.erase (h : IndexedBy field nodes node map) (hnodup : nodes.Nodup) (hn : n ∈ nodes) :
    IndexedBy field (nodes.erase n) node (map.erase (field (node n))) := by
  intro a m
  have hn' := (h _ n).mpr ⟨hn, rfl⟩
  rw [lookup_erase_eq, hnodup.mem_erase_iff]
  split_ifs with ha
  · refine iff_of_false nofun fun ⟨⟨hne, hm⟩, hfield⟩ => hne ?_
    have hm' := (h _ m).mpr ⟨hm, hfield⟩
    rw [ha, hn'] at hm'
    exact (Option.some.inj hm').symm
  · rw [h a m]
    refine and_congr_left fun hfield => (and_iff_right fun hm => ha ?_).symm
    rw [← hfield, hm]

theorem IndexedBy.cons (h : IndexedBy field nodes node map) (hn : n ∉ nodes)
    (hfield : ∀ m ∈ nodes, field (node m) ≠ field span) :
    IndexedBy field (n :: nodes) (update node n span) (add map (field span) n) := by
  have hnone : map.lookup (field span) = none := by
    rw [Option.eq_none_iff_forall_ne_some]
    exact fun m hm => hfield m ((h _ m).mp hm).1 ((h _ m).mp hm).2
  intro a m
  rw [lookup_add_eq hnone, mem_cons]
  by_cases hm : m = n
  · subst hm
    rw [update_self]
    split_ifs with ha
    · exact iff_of_true rfl ⟨Or.inl rfl, ha.symm⟩
    · refine iff_of_false (fun hget => hn ((h a m).mp hget).1) fun hspan => ha hspan.2.symm
  · rw [update_of_ne hm, or_iff_right hm]
    split_ifs with ha
    · refine iff_of_false (fun heq => hm (Option.some.inj heq).symm) fun hmem => ?_
      exact hfield m hmem.1 (hmem.2.trans ha)
    · exact h a m

/-- A node that keeps the value of the field stays where the map leads. -/
theorem IndexedBy.update (h : IndexedBy field nodes node map) (hnodup : nodes.Nodup) (hn : n ∈ nodes)
    (hfield : field span = field (node n)) :
    IndexedBy field (n :: nodes.erase n) (update node n span) map := by
  intro a m
  rw [h a m, mem_cons, hnodup.mem_erase_iff]
  by_cases hm : m = n
  · subst hm
    rw [update_self, hfield]
    simp only [hn, true_or]
  · rw [update_of_ne hm]
    simp only [hm, ne_eq, not_false_eq_true, true_and, false_or]

structure FreeSpace.Indexed (s : FreeSpace) : Prop where
  nodup : s.freeSpaceSizeMap.Nodup
  fresh : ∀ n ∈ s.freeSpaceSizeMap, n < s.nextNode
  start : IndexedBy Span.start s.freeSpaceSizeMap s.node s.freeSpaceStartAddressMap
  stop : IndexedBy stop s.freeSpaceSizeMap s.node s.freeSpaceEndAddressMap

def FreeSpace.otherSpans (s : FreeSpace) (n : NodeRef) : List Span :=
  (s.freeSpaceSizeMap.erase n).map s.node

theorem FreeSpace.spans_perm {s : FreeSpace} (hn : n ∈ s.freeSpaceSizeMap) :
    s.spans.Perm (s.node n :: s.otherSpans n) :=
  (perm_cons_erase hn).map s.node

theorem map_update_of_not_mem (hn : n ∉ nodes) : nodes.map (update node n span) = nodes.map node :=
  map_congr_left fun _ hm => update_of_ne (ne_of_mem_of_not_mem hm hn) _ _

end Indexes

namespace FreeSpace

structure WellFormed (s : FreeSpace) : Prop where
  indexed : s.Indexed
  coalesced : Coalesced s.spans

variable {s : FreeSpace} {n : NodeRef} {span : Span} {logPageSize bytes : ℕ} {search : SizeSearch}

theorem wellFormed_empty : WellFormed empty := by
  have hindexed (field : Span → ℕ) : IndexedBy field [] empty.node ∅ := by
    intro a n
    rw [AList.lookup_empty]
    exact iff_of_false nofun fun h => absurd h.1 not_mem_nil
  exact ⟨⟨nodup_nil, nofun, hindexed _, hindexed _⟩, coalesced_nil⟩

theorem mem_otherSpans {m : NodeRef} (hm : m ∈ s.freeSpaceSizeMap.erase n) : s.node m ∈ s.otherSpans n :=
  mem_map_of_mem hm

theorem WellFormed.cons_otherSpans (h : s.WellFormed) (hn : n ∈ s.freeSpaceSizeMap) :
    Coalesced (s.node n :: s.otherSpans n) :=
  h.coalesced.perm (spans_perm hn)

theorem coverage_spans (hn : n ∈ s.freeSpaceSizeMap) (a : ℕ) :
    coverage s.spans a = (if (s.node n).Contains a then 1 else 0) + coverage (s.otherSpans n) a := by
  rw [coverage_perm (spans_perm hn), coverage_cons]

/-- Change the span of one node, when the maps follow it. -/
theorem WellFormed.update (h : s.WellFormed) (hn : n ∈ s.freeSpaceSizeMap) (span : Span)
    (hpos : 0 < span.size)
    (hgap : ∀ other ∈ s.otherSpans n, 0 < other.size → Gap (s.node n) other → Gap span other)
    {startMap stopMap : HashMap ℕ NodeRef}
    (hstart : IndexedBy Span.start (n :: s.freeSpaceSizeMap.erase n) (update s.node n span)
      startMap)
    (hstop : IndexedBy stop (n :: s.freeSpaceSizeMap.erase n) (update s.node n span) stopMap) :
    WellFormed ⟨update s.node n span, s.nextNode, n :: s.freeSpaceSizeMap.erase n, startMap,
        stopMap⟩ ∧
      spans ⟨update s.node n span, s.nextNode, n :: s.freeSpaceSizeMap.erase n, startMap,
        stopMap⟩ = span :: s.otherSpans n := by
  have hnot : n ∉ s.freeSpaceSizeMap.erase n := h.indexed.nodup.not_mem_erase
  have hspans : (n :: s.freeSpaceSizeMap.erase n).map (Function.update s.node n span) =
      span :: s.otherSpans n := by
    rw [map_cons, update_self, map_update_of_not_mem hnot]
    rfl
  refine ⟨⟨⟨?_, ?_, hstart, hstop⟩, ?_⟩, hspans⟩
  · exact nodup_cons.mpr ⟨hnot, h.indexed.nodup.erase n⟩
  · intro m hm
    rcases mem_cons.mp hm with rfl | hm
    · exact h.indexed.fresh m hn
    · exact h.indexed.fresh m (mem_of_mem_erase hm)
  · change Coalesced (map _ _)
    rw [hspans]
    exact (h.cons_otherSpans hn).replace hpos hgap

structure Removes (s : FreeSpace) (sizeInBytes start : ℕ) (s' : FreeSpace) (node : Span) : Prop where
  wellFormed : s'.WellFormed
  coverage : ∀ a, coverage s.spans a =
    (if (⟨start, sizeInBytes⟩ : Span).Contains a then 1 else 0) + coverage s'.spans a
  inside : node.start ≤ start ∧ start + sizeInBytes ≤ node.stop

section

variable (h : s.WellFormed) (hn : n ∈ s.freeSpaceSizeMap)

include h hn

theorem removes_perfectFit : Removes s (s.node n).size (s.node n).start { s with
      freeSpaceSizeMap := s.freeSpaceSizeMap.erase n
      freeSpaceStartAddressMap := s.freeSpaceStartAddressMap.erase (s.node n).start
      freeSpaceEndAddressMap := s.freeSpaceEndAddressMap.erase (s.node n).stop } (s.node n) := by
  have hnodup := h.indexed.nodup
  refine ⟨⟨⟨hnodup.erase n, fun m hm => h.indexed.fresh m (mem_of_mem_erase hm),
    h.indexed.start.erase hnodup hn, h.indexed.stop.erase hnodup hn⟩, ?_⟩, ?_, le_rfl, le_rfl⟩
  · exact (h.cons_otherSpans hn).tail
  · exact fun a => coverage_spans hn a

theorem removes_left (hpos : 0 < bytes) (hlt : bytes < (s.node n).size) :
    Removes s bytes (s.node n).start { s with
      node := update s.node n
        ⟨(s.node n).start + bytes, (s.node n).size - bytes⟩
      freeSpaceSizeMap := n :: s.freeSpaceSizeMap.erase n
      freeSpaceStartAddressMap := add (s.freeSpaceStartAddressMap.erase (s.node n).start)
        ((s.node n).start + bytes) n } (s.node n) := by
  have hnodup := h.indexed.nodup
  have hcoal := h.cons_otherSpans hn
  obtain ⟨hwf, hspans⟩ := h.update hn
    ⟨(s.node n).start + bytes, (s.node n).size - bytes⟩ (Nat.sub_pos_of_lt hlt)
    (fun other _ hoth hgap => by
      simp only [Gap, stop] at *
      omega)
    ((h.indexed.start.erase hnodup hn).cons hnodup.not_mem_erase fun m hm => by
      have hgap := hcoal.head_gap (mem_otherSpans hm)
      simp only [Gap, stop] at *
      omega)
    (h.indexed.stop.update hnodup hn (by
      simp only [stop]
      omega))
  refine ⟨hwf, fun a => ?_, le_rfl, ?_⟩
  · have hcut := contains_cut (s.node n).start bytes ((s.node n).size - bytes) a
    rw [Nat.add_sub_cancel' hlt.le] at hcut
    rw [hspans, coverage_cons, ← add_assoc, ← hcut]
    exact coverage_spans hn a
  · exact Nat.add_le_add_left hlt.le _

theorem removes_right (hlt : bytes < (s.node n).size) :
    Removes s bytes ((s.node n).start + (s.node n).size - bytes) { s with
      node := update s.node n ⟨(s.node n).start, (s.node n).size - bytes⟩
      freeSpaceSizeMap := n :: s.freeSpaceSizeMap.erase n
      freeSpaceEndAddressMap := add (s.freeSpaceEndAddressMap.erase (s.node n).stop)
        ((s.node n).start + (s.node n).size - bytes) n } (s.node n) := by
  have hnodup := h.indexed.nodup
  have hcoal := h.cons_otherSpans hn
  have hres : (s.node n).start + (s.node n).size - bytes =
      (⟨(s.node n).start, (s.node n).size - bytes⟩ : Span).stop := Nat.add_sub_assoc hlt.le _
  rw [hres]
  obtain ⟨hwf, hspans⟩ := h.update hn
    ⟨(s.node n).start, (s.node n).size - bytes⟩ (Nat.sub_pos_of_lt hlt)
    (fun other _ hoth hgap => by
      simp only [Gap, stop] at *
      omega)
    (h.indexed.start.update hnodup hn rfl)
    ((h.indexed.stop.erase hnodup hn).cons hnodup.not_mem_erase fun m hm => by
      have hgap := hcoal.head_gap (mem_otherSpans hm)
      simp only [Gap, stop] at *
      omega)
  refine ⟨hwf, fun a => ?_, Nat.le_add_right _ _, ?_⟩
  · have hcut := contains_cut (s.node n).start ((s.node n).size - bytes) bytes a
    rw [Nat.sub_add_cancel hlt.le] at hcut
    rw [hspans, coverage_cons, ← add_assoc, add_comm (ite _ _ _) (ite _ _ _)]
    rw [stop, ← hcut]
    exact coverage_spans hn a
  · simp only [stop]
    omega

end

/-- The search takes the space from a node of the least size that fits, if there is one. -/
theorem findAndRemoveFreeSpace_spec (search : SizeSearch) (logPageSize : ℕ) (h : s.WellFormed)
    (hpos : 0 < bytes) :
    (∃ start s' node, s.findAndRemoveFreeSpace search logPageSize bytes = (some start, s') ∧
        Removes s bytes start s' node ∧ node ∈ s.spans ∧ bytes ≤ node.size ∧
        ∀ other ∈ s.spans, bytes ≤ other.size → node.size ≤ other.size) ∨
      (s.findAndRemoveFreeSpace search logPageSize bytes = (none, s) ∧
        ∀ other ∈ s.spans, other.size < bytes) := by
  unfold findAndRemoveFreeSpace
  cases hfind : search.findLeastGreaterThanOrEqual
    (s.freeSpaceSizeMap.map fun n => (n, (s.node n).size)) bytes with
  | none =>
    refine Or.inr ⟨rfl, fun other hoth => ?_⟩
    obtain ⟨n, hn, rfl⟩ := mem_map.mp hoth
    exact search.of_none hfind _ (mem_map_of_mem hn)
  | some n =>
    obtain ⟨size, hmem, hfits, hleast⟩ := search.of_some hfind
    obtain ⟨m, hn, heq⟩ := mem_map.mp hmem
    obtain ⟨rfl, rfl⟩ := Prod.mk.inj heq
    have hbest : ∀ other ∈ s.spans, bytes ≤ other.size → (s.node m).size ≤ other.size := by
      intro other hoth hle
      obtain ⟨n, hn, rfl⟩ := mem_map.mp hoth
      exact hleast _ (mem_map_of_mem hn) hle
    refine Or.inl ?_
    dsimp only
    split_ifs with hperfect hleft
    · subst hperfect
      exact ⟨_, _, _, rfl, removes_perfectFit h hn, mem_map_of_mem hn, hfits, hbest⟩
    · exact ⟨_, _, _, rfl, removes_left h hn hpos (lt_of_le_of_ne hfits (Ne.symm hperfect)),
        mem_map_of_mem hn, hfits, hbest⟩
    · exact ⟨_, _, _, rfl, removes_right h hn (lt_of_le_of_ne hfits (Ne.symm hperfect)),
        mem_map_of_mem hn, hfits, hbest⟩

structure Adds (s : FreeSpace) (start sizeInBytes : ℕ) (s' : FreeSpace) : Prop where
  wellFormed : s'.WellFormed
  coverage : ∀ a, coverage s'.spans a =
    (if (⟨start, sizeInBytes⟩ : Span).Contains a then 1 else 0) + coverage s.spans a

theorem not_mem_field_of_lookup_eq_none {field : Span → ℕ} {nodes : List NodeRef}
    {node : NodeRef → FreeSpaceNode} {map : HashMap ℕ NodeRef} (h : IndexedBy field nodes node map)
    {a : ℕ} (hnone : map.lookup a = none) : ∀ m ∈ nodes, field (node m) ≠ a := by
  intro m hm heq
  have hsome := (h a m).mpr ⟨hm, heq⟩
  rw [hnone] at hsome
  exact absurd hsome nofun

section Adding

variable {start : ℕ} (h : s.WellFormed) (hpos : 0 < bytes)
  (hapart : ∀ other ∈ s.spans, (⟨start, bytes⟩ : Span).Apart other)

include h hpos hapart

/-- The added space lies on one side of every node. -/
theorem WellFormed.beside : ∀ m ∈ s.freeSpaceSizeMap,
    0 < (s.node m).size ∧ (start + bytes ≤ (s.node m).start ∨ (s.node m).stop ≤ start) := by
  intro m hm
  have hoth : s.node m ∈ s.spans := mem_map_of_mem hm
  have hsize := h.coalesced.size_pos _ hoth
  exact ⟨hsize, (hapart _ hoth).le_or_le hpos hsize⟩

theorem adds_joinLeft (hn : n ∈ s.freeSpaceSizeMap) (hstop : (s.node n).stop = start)
    (hright : ∀ m ∈ s.freeSpaceSizeMap, (s.node m).start ≠ start + bytes) :
    Adds s start bytes { s with
      node := update s.node n ⟨(s.node n).start, (s.node n).size + bytes⟩
      freeSpaceSizeMap := n :: s.freeSpaceSizeMap.erase n
      freeSpaceEndAddressMap := add (s.freeSpaceEndAddressMap.erase (s.node n).stop)
        (start + bytes) n } := by
  have hnodup := h.indexed.nodup
  have hbeside := h.beside hpos hapart
  have hend : start + bytes = (⟨(s.node n).start, (s.node n).size + bytes⟩ : Span).stop := by
    simp only [stop] at *
    omega
  rw [hend]
  obtain ⟨hwf, hspans⟩ := h.update hn
    ⟨(s.node n).start, (s.node n).size + bytes⟩ (Nat.add_pos_right _ hpos)
    (fun other hoth _ hgap => by
      obtain ⟨m, hm, rfl⟩ := mem_map.mp hoth
      have hside := hbeside m (mem_of_mem_erase hm)
      have hne := hright m (mem_of_mem_erase hm)
      simp only [Gap, stop] at *
      omega)
    (h.indexed.start.update hnodup hn rfl)
    ((h.indexed.stop.erase hnodup hn).cons hnodup.not_mem_erase fun m hm => by
      have hside := hbeside m (mem_of_mem_erase hm)
      simp only [stop] at *
      omega)
  refine ⟨hwf, fun a => ?_⟩
  rw [hspans, coverage_cons, contains_extendRight, coverage_spans hn, hstop]
  ac_rfl

theorem adds_joinRight (hn : n ∈ s.freeSpaceSizeMap) (hstart : (s.node n).start = start + bytes)
    (hleft : ∀ m ∈ s.freeSpaceSizeMap, (s.node m).stop ≠ start) :
    Adds s start bytes { s with
      node := update s.node n ⟨start, (s.node n).size + bytes⟩
      freeSpaceSizeMap := n :: s.freeSpaceSizeMap.erase n
      freeSpaceStartAddressMap :=
        add (s.freeSpaceStartAddressMap.erase (start + bytes)) start n } := by
  have hnodup := h.indexed.nodup
  have hbeside := h.beside hpos hapart
  rw [← hstart]
  obtain ⟨hwf, hspans⟩ := h.update hn
    ⟨start, (s.node n).size + bytes⟩ (Nat.add_pos_right _ hpos)
    (fun other hoth _ hgap => by
      obtain ⟨m, hm, rfl⟩ := mem_map.mp hoth
      have hside := hbeside m (mem_of_mem_erase hm)
      have hne := hleft m (mem_of_mem_erase hm)
      simp only [Gap, stop] at *
      omega)
    ((h.indexed.start.erase hnodup hn).cons hnodup.not_mem_erase fun m hm => by
      have hside := hbeside m (mem_of_mem_erase hm)
      simp only [stop] at *
      omega)
    (h.indexed.stop.update hnodup hn (by
      simp only [stop] at *
      omega))
  refine ⟨hwf, fun a => ?_⟩
  rw [hspans, coverage_cons, contains_extendLeft _ hstart, coverage_spans hn, add_assoc]

theorem adds_newNode (hleft : ∀ m ∈ s.freeSpaceSizeMap, (s.node m).stop ≠ start)
    (hright : ∀ m ∈ s.freeSpaceSizeMap, (s.node m).start ≠ start + bytes) :
    Adds s start bytes
      { node := update s.node s.nextNode ⟨start, bytes⟩
        nextNode := s.nextNode + 1
        freeSpaceSizeMap := s.nextNode :: s.freeSpaceSizeMap
        freeSpaceStartAddressMap := add s.freeSpaceStartAddressMap start s.nextNode
        freeSpaceEndAddressMap := add s.freeSpaceEndAddressMap (start + bytes) s.nextNode } := by
  have hbeside := h.beside hpos hapart
  have hnot : s.nextNode ∉ s.freeSpaceSizeMap := fun hmem => lt_irrefl _ (h.indexed.fresh _ hmem)
  have hspans : (s.nextNode :: s.freeSpaceSizeMap).map
      (update s.node s.nextNode ⟨start, bytes⟩) = ⟨start, bytes⟩ :: s.spans := by
    rw [map_cons, update_self, map_update_of_not_mem hnot]
    rfl
  refine ⟨⟨⟨nodup_cons.mpr ⟨hnot, h.indexed.nodup⟩, ?_, ?_, ?_⟩, ?_⟩, fun a => ?_⟩
  · intro m hm
    rcases mem_cons.mp hm with rfl | hm
    · exact Nat.lt_succ_self _
    · exact (h.indexed.fresh m hm).trans (Nat.lt_succ_self _)
  · refine h.indexed.start.cons hnot fun m hm => ?_
    have hside := hbeside m hm
    simp only [stop] at *
    omega
  · refine h.indexed.stop.cons hnot fun m hm => ?_
    have hside := hbeside m hm
    simp only [stop] at *
    omega
  · change Coalesced (map _ _)
    rw [hspans]
    refine h.coalesced.cons hpos fun other hoth _ => ?_
    obtain ⟨m, hm, rfl⟩ := mem_map.mp hoth
    have hside := hbeside m hm
    have hne := hleft m hm
    have hne' := hright m hm
    simp only [Gap, stop] at *
    omega
  · change coverage (map _ _) a = _
    rw [hspans, coverage_cons]

theorem adds_joinBoth {m : NodeRef} (hn : n ∈ s.freeSpaceSizeMap) (hstop : (s.node n).stop = start)
    (hm : m ∈ s.freeSpaceSizeMap) (hstart : (s.node m).start = start + bytes) :
    Adds s start bytes { s with
      node := update s.node n
        ⟨(s.node n).start, (s.node n).size + (bytes + (s.node m).size)⟩
      freeSpaceSizeMap := n :: (s.freeSpaceSizeMap.erase n).erase m
      freeSpaceStartAddressMap := s.freeSpaceStartAddressMap.erase (start + bytes)
      freeSpaceEndAddressMap :=
        add ((s.freeSpaceEndAddressMap.erase (s.node n).stop).erase
          (start + bytes + (s.node m).size)) (start + bytes + (s.node m).size) n } := by
  have hne : n ≠ m := by
    rintro rfl
    simp only [stop] at *
    omega
  obtain ⟨hwf, hcover, -⟩ := removes_perfectFit h hm
  set others : FreeSpace := { s with
    freeSpaceSizeMap := s.freeSpaceSizeMap.erase m
    freeSpaceStartAddressMap := s.freeSpaceStartAddressMap.erase (s.node m).start
    freeSpaceEndAddressMap := s.freeSpaceEndAddressMap.erase (s.node m).stop }
  have hn' : n ∈ others.freeSpaceSizeMap := (mem_erase_of_ne hne).mpr hn
  have hgapRight := h.cons_otherSpans hm
  have hapart' : ∀ other ∈ others.spans, (⟨start, bytes + (s.node m).size⟩ : Span).Apart other := by
    intro other hoth a hcont
    have hnew : (⟨start, bytes⟩ : Span).Apart other := by
      obtain ⟨k, hk, rfl⟩ := mem_map.mp hoth
      exact hapart _ (mem_map_of_mem (mem_of_mem_erase hk))
    have hright : (s.node m).Apart other := (hgapRight.head_gap hoth).apart
    by_cases hlt : a < start + bytes
    · exact hnew a ⟨hcont.1, hlt⟩
    · refine hright a ?_
      simp only [Span.Contains, stop] at *
      omega
  have hright' : ∀ k ∈ others.freeSpaceSizeMap,
      (others.node k).start ≠ start + (bytes + (s.node m).size) := by
    intro k hk
    have hgap := hgapRight.head_gap (mem_otherSpans hk)
    change (s.node k).start ≠ _
    simp only [Gap, stop] at *
    omega
  have hjoined := adds_joinLeft hwf (Nat.add_pos_left hpos _) hapart' hn' hstop hright'
  have hstop' : (s.node m).stop = start + bytes + (s.node m).size := by
    rw [stop, hstart]
  have hsizeMap : (s.freeSpaceSizeMap.erase n).erase m = others.freeSpaceSizeMap.erase n :=
    erase_comm n m
  have hstartMap : s.freeSpaceStartAddressMap.erase (start + bytes) =
      others.freeSpaceStartAddressMap := by rw [← hstart]
  have hendMap : (s.freeSpaceEndAddressMap.erase (s.node n).stop).erase
      (start + bytes + (s.node m).size) = others.freeSpaceEndAddressMap.erase (s.node n).stop := by
    rw [← hstop', AList.erase_erase]
  rw [hsizeMap, hstartMap, hendMap, add_assoc]
  refine ⟨hjoined.wellFormed, fun a => ?_⟩
  have hcut := contains_cut start bytes (s.node m).size a
  refine (hjoined.coverage a).trans ?_
  rw [hcut, hcover a, ← hstart]
  exact add_assoc _ _ _

/-- Added space is joined with the nodes that it touches. -/
theorem addFreeSpace_spec : Adds s start bytes (s.addFreeSpace start bytes) := by
  unfold addFreeSpace
  dsimp only
  cases hleft : s.freeSpaceEndAddressMap.lookup start with
  | none =>
    have hleft' := not_mem_field_of_lookup_eq_none h.indexed.stop hleft
    cases hright : s.freeSpaceStartAddressMap.lookup (start + bytes) with
    | none =>
      exact adds_newNode h hpos hapart hleft'
        (not_mem_field_of_lookup_eq_none h.indexed.start hright)
    | some rightNode =>
      obtain ⟨hmem, hstart⟩ := (h.indexed.start _ _).mp hright
      exact adds_joinRight h hpos hapart hmem hstart hleft'
  | some leftNode =>
    obtain ⟨hmem, hstop⟩ := (h.indexed.stop _ _).mp hleft
    cases hright : s.freeSpaceStartAddressMap.lookup (start + bytes) with
    | none =>
      exact adds_joinLeft h hpos hapart hmem hstop
        (not_mem_field_of_lookup_eq_none h.indexed.start hright)
    | some rightNode =>
      obtain ⟨hmem', hstart⟩ := (h.indexed.start _ _).mp hright
      exact adds_joinBoth h hpos hapart hmem hstop hmem' hstart

end Adding

end FreeSpace

end WebKit
