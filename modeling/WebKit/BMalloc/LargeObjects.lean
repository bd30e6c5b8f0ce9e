import WebKit.BMalloc.LargeMap
import WebKit.Foundation.HashMaps
import WebKit.Foundation.Runs

/-!
Large objects. An allocation takes a free range, or maps a new chunk, cuts off what lies before the
aligned address and behind the size, and commits the pages of what it keeps. The scavenger takes
free ranges out, decommits the pages that lie entirely inside them and puts them back, while
objects are allocated and freed in between.
-/

namespace WebKit.BMalloc

open WebKit.Alignment List HashMaps Runs Tilings
open Option hiding mem_map
open XLargeMap (add alignedStart)
open XLargeRange (split_fst split_snd)

def smallMax : ℕ := 32 * 1024
def pageSizeWasteFactor : ℕ := 8
def largeAlignment : ℕ := smallMax / pageSizeWasteFactor
def chunkSize : ℕ := 2 * 1024 * 1024
def alignment : ℕ := 8

section VirtualMemory

variable (pageSize : ℕ)

def vmAllocatePhysicalPagesSloppy (committed : ℕ → Bool) (p size : ℕ) : ℕ → Bool :=
  let start := roundDown 64 pageSize p
  let stop := roundUp 64 pageSize (p + size)
  if stop ≤ start then committed
  else fun page => committed page || (start ≤ page * pageSize && page * pageSize < stop)

def vmDeallocatePhysicalPagesSloppy (committed : ℕ → Bool) (p size : ℕ) : ℕ → Bool :=
  let start := roundUp 64 pageSize p
  let stop := roundDown 64 pageSize (p + size)
  if stop ≤ start then committed
  else fun page => committed page && !(start ≤ page * pageSize && page * pageSize < stop)

end VirtualMemory

def tryVMAllocate (mmap : ℕ → Option ℕ) (vmAlignment vmSize : ℕ) : Option ℕ :=
  let mappedSize := (vmAlignment + vmSize) % 2 ^ 64
  if mappedSize < vmAlignment || mappedSize < vmSize then none
  else (mmap mappedSize).map fun mapped => roundUp 64 vmAlignment mapped

def tryAllocateLargeChunk (mmap : ℕ → Option ℕ) (alignment size : ℕ) : Option XLargeRange :=
  let roundedAlignment := roundUp 64 chunkSize alignment
  if roundedAlignment < alignment then none
  else
    let roundedSize := roundUp 64 chunkSize size
    if roundedSize < size then none
    else (tryVMAllocate mmap roundedAlignment roundedSize).map fun memory => ⟨⟨memory, roundedSize⟩, 0⟩

structure LargeHeap where
  largeFree : List XLargeRange
  largeAllocated : HashMap ℕ ℕ
  committed : ℕ → Bool

namespace LargeHeap

def emptyRange : XLargeRange := ⟨⟨0, 0⟩, 0⟩

def splitPrefix (range : XLargeRange) (alignment : ℕ) : XLargeRange × XLargeRange :=
  if XLargeMap.test range.start (alignment - 1) then
    range.split (roundUp 64 alignment range.start - range.start)
  else (emptyRange, range)

def splitSuffix (range : XLargeRange) (size : ℕ) : XLargeRange × XLargeRange :=
  if size / pageSizeWasteFactor < range.size - size then range.split size else (range, emptyRange)

variable (pageSize : ℕ)

def commitPhysical (committed : ℕ → Bool) (range : XLargeRange) : ℕ → Bool :=
  if range.physicalSize < range.size then
    vmAllocatePhysicalPagesSloppy pageSize committed (range.start + range.physicalSize)
      (range.size - range.physicalSize)
  else committed

def addIfNotEmpty (free : List XLargeRange) (range : XLargeRange) : List XLargeRange :=
  if range.size = 0 then free else add free range

variable (s : LargeHeap)

def splitAndAllocate (range : XLargeRange) (alignment size : ℕ) : Span × LargeHeap :=
  let (prev, range) := splitPrefix range alignment
  let (range, next) := splitSuffix range size
  (range.toSpan,
    { largeFree := addIfNotEmpty (addIfNotEmpty s.largeFree prev) next
      largeAllocated := s.largeAllocated.insert range.start range.size
      committed := commitPhysical pageSize s.committed range })

structure Allocation where
  heap : LargeHeap
  object : Option ℕ
  mapped : Option Span

def tryAllocateLarge (mmap : ℕ → Option ℕ) (s : LargeHeap) (alignment size : ℕ) :
    Option Allocation :=
  let roundedSize := if size = 0 then largeAlignment else roundUp 64 largeAlignment size
  if roundedSize < size then some ⟨s, none, none⟩
  else
    let roundedAlignment := roundUp 64 largeAlignment alignment
    if roundedAlignment < alignment then some ⟨s, none, none⟩
    else
      match XLargeMap.remove s.largeFree roundedAlignment roundedSize with
      | some (range, largeFree) =>
        let (object, heap) := { s with largeFree := largeFree }.splitAndAllocate pageSize range
          roundedAlignment roundedSize
        some ⟨heap, some object.start, none⟩
      | none =>
        match tryAllocateLargeChunk mmap roundedAlignment roundedSize with
        | none => some ⟨s, none, none⟩
        | some chunk =>
          (XLargeMap.remove (add s.largeFree chunk) roundedAlignment roundedSize).map
            fun (range, largeFree) =>
              let (object, heap) := { s with largeFree := largeFree }.splitAndAllocate pageSize range
                roundedAlignment roundedSize
              ⟨heap, some object.start, some chunk.toSpan⟩

def shrinkLarge (object : Span) (newSize : ℕ) : Option LargeHeap :=
  (s.largeAllocated.lookup object.start).map fun size =>
    ({ s with largeAllocated := s.largeAllocated.erase object.start }.splitAndAllocate pageSize
      ⟨object, size⟩ alignment newSize).2

def deallocateLarge (object : ℕ) : Option LargeHeap :=
  (s.largeAllocated.lookup object).map fun size =>
    { s with
      largeFree := add s.largeFree ⟨⟨object, size⟩, size⟩
      largeAllocated := s.largeAllocated.erase object }

def objects : List Span := (pairs s.largeAllocated).map fun entry => ⟨entry.1, entry.2⟩

end LargeHeap

/-- Where the scavenger is in its loop: the lock is free while it holds a range. -/
inductive Scavenger where
  | idle
  | removed (range : XLargeRange)
  | decommitted (range : XLargeRange)

def Scavenger.held : Scavenger → List Span
  | .idle => []
  | .removed range => [range.toSpan]
  | .decommitted range => [range.toSpan]

structure LargeSystem where
  heap : LargeHeap
  chunks : List Span
  scavenger : Scavenger

inductive LargeEvent where
  | tryAllocateLarge (mmap : ℕ → Option ℕ) (alignment size : ℕ)
  | deallocateLarge (object : ℕ)
  | shrinkLarge (object : Span) (newSize : ℕ)
  | scavengeRemove
  | scavengeDecommit
  | scavengeAdd

namespace LargeSystem

def initial : LargeSystem := ⟨⟨[], ∅, fun _ => false⟩, [], .idle⟩

variable (pageSize : ℕ) (s : LargeSystem)

def step : LargeEvent → Option LargeSystem
  | .tryAllocateLarge mmap alignment size =>
    (s.heap.tryAllocateLarge pageSize mmap alignment size).map fun allocation =>
      { s with heap := allocation.heap, chunks := allocation.mapped.toList ++ s.chunks }
  | .deallocateLarge object => (s.heap.deallocateLarge object).map fun heap => { s with heap := heap }
  | .shrinkLarge object newSize =>
    (s.heap.shrinkLarge pageSize object newSize).map fun heap => { s with heap := heap }
  | .scavengeRemove =>
    match s.scavenger with
    | .idle =>
      match XLargeMap.removePhysical s.heap.largeFree with
      | none => some s
      | some (range, largeFree) =>
        some { s with heap := { s.heap with largeFree := largeFree }, scavenger := .removed range }
    | _ => none
  | .scavengeDecommit =>
    match s.scavenger with
    | .removed range =>
      some { s with
        heap := { s.heap with
          committed := vmDeallocatePhysicalPagesSloppy pageSize s.heap.committed range.start
            range.size }
        scavenger := .decommitted range }
    | _ => none
  | .scavengeAdd =>
    match s.scavenger with
    | .decommitted range =>
      some { s with
        heap := { s.heap with largeFree := add s.heap.largeFree ⟨range.toSpan, 0⟩ }
        scavenger := .idle }
    | _ => none

/-- Alignments are powers of two, mappings are whole pages apart from the chunks, freed and shrunk
objects are live, and the scavenger goes through its loop in order. -/
def Legal : LargeEvent → Prop
  | .tryAllocateLarge mmap alignment size => (∃ m < 64, alignment = 2 ^ m) ∧ size < 2 ^ 64 ∧
      ∀ mappedSize mapped, mmap mappedSize = some mapped →
        pageSize ∣ mapped + mappedSize ∧ mapped + mappedSize < 2 ^ 64 ∧
        ∀ chunk ∈ s.chunks, (⟨mapped, mappedSize⟩ : Span).Apart chunk
  | .deallocateLarge object => s.heap.largeAllocated.lookup object ≠ none
  | .shrinkLarge object newSize => s.heap.largeAllocated.lookup object.start = some object.size ∧
      smallMax < newSize ∧ newSize < object.size
  | .scavengeRemove => s.scavenger = .idle
  | .scavengeDecommit => ∃ range, s.scavenger = .removed range
  | .scavengeAdd => ∃ range, s.scavenger = .decommitted range

/-- Objects, free ranges and the range of the scavenger are a tiling of the chunks, no two free ranges
touch, and every byte of an object is on a committed page. -/
structure Sound (s : LargeSystem) : Prop where
  tiles : Tiles (s.heap.objects ++ spans s.heap.largeFree ++ s.scavenger.held) s.chunks
  notAdjacent : (spans s.heap.largeFree).Pairwise NotAdjacent
  committed : ∀ object ∈ s.heap.objects, ∀ a, object.Contains a →
    s.heap.committed (a / pageSize) = true

def StepSound (event : LargeEvent) : Prop :=
  (∃ t, s.step pageSize event = some t) ∧
    ∀ mmap alignment size, event = .tryAllocateLarge mmap alignment size →
      ∃ allocation, s.heap.tryAllocateLarge pageSize mmap alignment size = some allocation ∧
        ∀ address, allocation.object = some address → alignment ∣ address ∧
          ∃ object ∈ allocation.heap.objects, object.start = address ∧ size ≤ object.size

end LargeSystem

section VirtualMemory

variable {k : ℕ} {committed : ℕ → Bool} {p size : ℕ}

theorem committed_vmAllocate {page : ℕ} (h : committed page) (pageSize p size : ℕ) :
    vmAllocatePhysicalPagesSloppy pageSize committed p size page := by
  unfold vmAllocatePhysicalPagesSloppy
  split_ifs
  · exact h
  · exact Bool.or_eq_true_iff.mpr (Or.inl h)

/-- The bytes of a range are on committed pages after its pages were committed. -/
theorem committed_vmAllocate_of_mem (hk : k ≤ 64) (hstop : p + size + 2 ^ k ≤ 2 ^ 64) {a : ℕ}
    (hlow : p ≤ a) (hhigh : a < p + size) :
    vmAllocatePhysicalPagesSloppy (2 ^ k) committed p size (a / 2 ^ k) := by
  have hpow := Nat.two_pow_pos k
  have hend := le_roundUp hk (show p + size + (2 ^ k - 1) < 2 ^ 64 by omega)
  have hstart := roundDown_eq hk (show p < 2 ^ 64 by omega)
  have hpage : p / 2 ^ k * 2 ^ k ≤ a / 2 ^ k * 2 ^ k :=
    Nat.mul_le_mul_right _ (Nat.div_le_div_right hlow)
  have hle := Nat.div_mul_le_self a (2 ^ k)
  unfold vmAllocatePhysicalPagesSloppy
  rw [if_neg (by omega), Bool.or_eq_true, Bool.and_eq_true, decide_eq_true_eq, decide_eq_true_eq]
  exact Or.inr ⟨by omega, by omega⟩

/-- A page with a byte outside of the range is not decommitted with it. -/
theorem vmDeallocate_of_not_mem (hk : k ≤ 64) (hstop : p + size + 2 ^ k ≤ 2 ^ 64) {a : ℕ}
    (ha : ¬(p ≤ a ∧ a < p + size)) :
    vmDeallocatePhysicalPagesSloppy (2 ^ k) committed p size (a / 2 ^ k) = committed (a / 2 ^ k) := by
  have hpow := Nat.two_pow_pos k
  have hstart := le_roundUp hk (show p + (2 ^ k - 1) < 2 ^ 64 by omega)
  have hend := roundDown_eq hk (show p + size < 2 ^ 64 by omega)
  have hle := Nat.div_mul_le_self a (2 ^ k)
  have hlt := Nat.lt_div_mul_add (a := a) hpow
  unfold vmDeallocatePhysicalPagesSloppy
  split_ifs
  · rfl
  · have hout : (decide (roundUp 64 (2 ^ k) p ≤ a / 2 ^ k * 2 ^ k) &&
        decide (a / 2 ^ k * 2 ^ k < roundDown 64 (2 ^ k) (p + size))) = false := by
      rw [Bool.and_eq_false_iff, decide_eq_false_iff_not, decide_eq_false_iff_not]
      by_contra hin
      rw [not_or, not_not, not_not, hend] at hin
      have hpage := Nat.lt_of_mul_lt_mul_right hin.2
      have hnext : (a / 2 ^ k + 1) * 2 ^ k ≤ (p + size) / 2 ^ k * 2 ^ k := Nat.mul_le_mul_right _ hpage
      rw [Nat.succ_mul] at hnext
      have hle' := Nat.div_mul_le_self (p + size) (2 ^ k)
      omega
    beta_reduce
    rw [hout, Bool.not_false, Bool.and_true]

end VirtualMemory

theorem Backed.mono {pageSize : ℕ} {committed committed' : ℕ → Bool} {range : XLargeRange}
    (h : Backed pageSize committed range)
    (hle : ∀ page, committed page → committed' page) : Backed pageSize committed' range :=
  ⟨h.physicalSize_le, fun a hlow hhigh => hle _ (h.committed_of_lt a hlow hhigh)⟩

theorem backed_empty (pageSize : ℕ) (committed : ℕ → Bool) (span : Span) :
    Backed pageSize committed ⟨span, 0⟩ :=
  ⟨Nat.zero_le _, fun _ hlow hhigh => absurd hhigh (not_lt.mpr hlow)⟩

theorem XLargeMap.WellFormed.mono {pageSize : ℕ} {committed committed' : ℕ → Bool}
    {free : List XLargeRange} (h : XLargeMap.WellFormed pageSize committed free)
    (hle : ∀ page, committed page → committed' page) :
    XLargeMap.WellFormed pageSize committed' free :=
  ⟨h.coalesced, fun range hmem => (h.backed range hmem).mono hle⟩

namespace LargeHeap

variable {pageSize k m size : ℕ} {committed : ℕ → Bool} {range : XLargeRange} {free : List XLargeRange}

theorem not_contains_empty (start a : ℕ) : ¬(⟨start, 0⟩ : Span).Contains a :=
  fun h => absurd h.2 (not_lt.mpr h.1)

theorem contains_emptyRange (a : ℕ) : (if emptyRange.Contains a then 1 else 0) = 0 :=
  if_neg (not_contains_empty 0 a)

theorem addIfNotEmpty_spec (hfree : XLargeMap.WellFormed pageSize committed free)
    (hbacked : Backed pageSize committed range)
    (hcover : ∀ a, coverage (range.toSpan :: spans free) a ≤ 1) :
    XLargeMap.WellFormed pageSize committed (addIfNotEmpty free range) ∧
      ∀ a, coverage (spans (addIfNotEmpty free range)) a =
        (if range.Contains a then 1 else 0) + coverage (spans free) a := by
  unfold addIfNotEmpty
  split_ifs with hempty
  · refine ⟨hfree, fun a => ?_⟩
    obtain ⟨⟨start, size⟩, physicalSize⟩ := range
    obtain rfl : size = 0 := hempty
    rw [if_neg (not_contains_empty start a), zero_add]
  · exact XLargeMap.add_spec hfree (Nat.pos_of_ne_zero hempty) hbacked hcover

structure Cuts (pageSize : ℕ) (committed : ℕ → Bool) (range left right : XLargeRange) : Prop where
  left_backed : Backed pageSize committed left
  right_backed : Backed pageSize committed right
  contains : ∀ a, (if range.Contains a then 1 else 0) =
    (if left.Contains a then 1 else 0) + (if right.Contains a then 1 else 0)

theorem cuts_split (h : Backed pageSize committed range) (hsize : size ≤ range.size) :
    Cuts pageSize committed range (range.split size).1 (range.split size).2 := by
  obtain ⟨hleft, hright⟩ := XLargeRange.backed_split h size
  refine ⟨hleft, hright, fun a => ?_⟩
  have hcut := contains_cut range.start size (range.size - size) a
  rw [Nat.add_sub_cancel' hsize] at hcut
  rw [split_fst, split_snd]
  exact hcut

theorem splitPrefix_spec (h : Backed pageSize committed range)
    (hstart : range.start ≤ alignedStart (2 ^ m) range.start)
    (hstop : alignedStart (2 ^ m) range.start ≤ range.stop) :
    Cuts pageSize committed range (splitPrefix range (2 ^ m)).1 (splitPrefix range (2 ^ m)).2 ∧
      (splitPrefix range (2 ^ m)).2.start = alignedStart (2 ^ m) range.start ∧
      (splitPrefix range (2 ^ m)).2.stop = range.stop := by
  unfold splitPrefix
  unfold alignedStart at hstart hstop ⊢
  split_ifs at hstart hstop ⊢ with htest
  · simp only [Span.stop] at hstop
    refine ⟨cuts_split h (by omega), ?_⟩
    rw [split_snd]
    refine ⟨Nat.add_sub_cancel' hstart, ?_⟩
    simp only [Span.stop]
    omega
  · refine ⟨⟨backed_empty _ _ _, h, fun a => ?_⟩, rfl, rfl⟩
    rw [contains_emptyRange, zero_add]

theorem splitSuffix_spec (h : Backed pageSize committed range) (hsize : size ≤ range.size) :
    Cuts pageSize committed range (splitSuffix range size).1 (splitSuffix range size).2 ∧
      (splitSuffix range size).1.start = range.start ∧ size ≤ (splitSuffix range size).1.size ∧
      (splitSuffix range size).1.stop ≤ range.stop := by
  unfold splitSuffix
  split_ifs
  · refine ⟨cuts_split h hsize, ?_⟩
    rw [split_fst]
    exact ⟨rfl, le_rfl, Nat.add_le_add_left hsize _⟩
  · refine ⟨⟨h, backed_empty _ _ _, fun a => ?_⟩, rfl, hsize, le_rfl⟩
    rw [contains_emptyRange, add_zero]

/-- All bytes of a range are on committed pages after its missing pages were committed. -/
theorem committed_commitPhysical_of_mem (hk : k ≤ 64) (h : Backed (2 ^ k) committed range)
    (hstop : range.stop + 2 ^ k ≤ 2 ^ 64) {a : ℕ} (ha : range.Contains a) :
    commitPhysical (2 ^ k) committed range (a / 2 ^ k) := by
  simp only [Span.Contains, Span.stop] at ha hstop
  unfold commitPhysical
  by_cases hphys : a < range.start + range.physicalSize
  · have hbacked := h.committed_of_lt a ha.1 hphys
    split_ifs
    · exact committed_vmAllocate hbacked _ _ _
    · exact hbacked
  · rw [if_pos (by omega)]
    exact committed_vmAllocate_of_mem hk (by omega) (by omega) (by omega)

/-- What allocating in a range leaves: an aligned object of at least the size, on committed pages, and
the rest of the range among the free ranges. -/
structure Allocates (k : ℕ) (s : LargeHeap) (range : XLargeRange) (alignment size : ℕ) (object : Span)
    (t : LargeHeap) : Prop where
  start_eq : object.start = alignedStart alignment range.start
  size_le : size ≤ object.size
  largeAllocated : t.largeAllocated = s.largeAllocated.insert object.start object.size
  wellFormed : XLargeMap.WellFormed (2 ^ k) t.committed t.largeFree
  committed_mono : ∀ page, s.committed page = true → t.committed page = true
  committed : ∀ a, object.Contains a → t.committed (a / 2 ^ k) = true
  coverage : ∀ a, (if object.Contains a then 1 else 0) + coverage (spans t.largeFree) a =
    (if range.Contains a then 1 else 0) + coverage (spans s.largeFree) a

theorem splitAndAllocate_spec (hk : k ≤ 64) {s : LargeHeap}
    (hfree : XLargeMap.WellFormed (2 ^ k) s.committed s.largeFree)
    (hbacked : Backed (2 ^ k) s.committed range)
    (hcover : ∀ a, coverage (range.toSpan :: spans s.largeFree) a ≤ 1)
    (hstop : range.stop + 2 ^ k ≤ 2 ^ 64)
    (hstart : range.start ≤ alignedStart (2 ^ m) range.start)
    (hroom : alignedStart (2 ^ m) range.start + size ≤ range.stop) :
    Allocates k s range (2 ^ m) size (s.splitAndAllocate (2 ^ k) range (2 ^ m) size).1
      (s.splitAndAllocate (2 ^ k) range (2 ^ m) size).2 := by
  obtain ⟨hcutFront, hmiddleStart, hmiddleStop⟩ :=
    splitPrefix_spec hbacked hstart ((Nat.le_add_right _ _).trans hroom)
  set prev := (splitPrefix range (2 ^ m)).1
  set middle := (splitPrefix range (2 ^ m)).2
  have hmiddle : size ≤ middle.size := by
    simp only [Span.stop] at hmiddleStop hroom
    omega
  obtain ⟨hsuffix, hobjectStart, hobjSize, hobjectStop⟩ :=
    splitSuffix_spec hcutFront.right_backed hmiddle
  set object := (splitSuffix middle size).1
  set next := (splitSuffix middle size).2
  set committed := commitPhysical (2 ^ k) s.committed object with hcomm
  have hmono (page : ℕ) (h : s.committed page) : committed page := by
    rw [hcomm, commitPhysical]
    split_ifs
    · exact committed_vmAllocate h _ _ _
    · exact h
  have hparts (a : ℕ) : (if range.Contains a then 1 else 0) = (if prev.Contains a then 1 else 0) +
      ((if object.Contains a then 1 else 0) + (if next.Contains a then 1 else 0)) := by
    rw [hcutFront.contains, hsuffix.contains]
  obtain ⟨hprev, hprevCoverage⟩ := addIfNotEmpty_spec (hfree.mono hmono)
    (hcutFront.left_backed.mono hmono) fun a => by
      have hle := hcover a
      rw [coverage_cons, hparts] at hle
      rw [coverage_cons]
      omega
  obtain ⟨hnext, hnextCoverage⟩ := addIfNotEmpty_spec hprev (hsuffix.right_backed.mono hmono)
    fun a => by
      have hle := hcover a
      rw [coverage_cons, hparts] at hle
      rw [coverage_cons, hprevCoverage]
      omega
  refine ⟨hobjectStart.trans hmiddleStart, hobjSize, rfl, hnext, hmono, fun a ha => ?_, fun a => ?_⟩
  · exact committed_commitPhysical_of_mem hk hsuffix.left_backed (by omega) ha
  · change _ + Tilings.coverage (spans (addIfNotEmpty (addIfNotEmpty s.largeFree prev) next)) a = _
    rw [hnextCoverage, hprevCoverage, hparts]
    change (if object.Contains a then 1 else 0) + _ = _
    omega

end LargeHeap

namespace LargeHeap

variable {s : LargeHeap} {start size : ℕ}

theorem mem_objects {object : Span} :
    object ∈ s.objects ↔ s.largeAllocated.lookup object.start = some object.size := by
  rw [← mem_pairs, objects, mem_map]
  constructor
  · rintro ⟨entry, hmem, rfl⟩
    exact hmem
  · intro hmem
    exact ⟨_, hmem, rfl⟩

theorem coverage_objects_of_lookup (h : s.largeAllocated.lookup start = some size) (a : ℕ) :
    coverage s.objects a = (if (⟨start, size⟩ : Span).Contains a then 1 else 0) +
      coverage (objects { s with largeAllocated := s.largeAllocated.erase start }) a :=
  (coverage_perm ((pairs_perm h).map fun entry : ℕ × ℕ => (⟨entry.1, entry.2⟩ : Span)) a).trans
    (coverage_cons _ _ _)

theorem objects_erase_subset (s : LargeHeap) (start : ℕ) :
    objects { s with largeAllocated := s.largeAllocated.erase start } ⊆ s.objects := by
  intro object hobj
  rw [mem_objects, lookup_erase_eq] at hobj
  split_ifs at hobj
  exact mem_objects.mpr hobj

end LargeHeap

namespace LargeSystem

structure Invariant (k : ℕ) (s : LargeSystem) : Prop where
  free : XLargeMap.WellFormed (2 ^ k) s.heap.committed s.heap.largeFree
  chunks_apart : s.chunks.Pairwise Span.Apart
  chunk_stop : ∀ chunk ∈ s.chunks, chunk.stop + 2 ^ k ≤ 2 ^ 64
  coverage : ∀ a, coverage s.heap.objects a + coverage (spans s.heap.largeFree) a +
    coverage s.scavenger.held a = coverage s.chunks a
  object_pos : ∀ object ∈ s.heap.objects, 0 < object.size
  object_dvd : ∀ object ∈ s.heap.objects, 2 ^ 12 ∣ object.start
  held_pos : ∀ span ∈ s.scavenger.held, 0 < span.size
  committed : ∀ object ∈ s.heap.objects, ∀ a, object.Contains a →
    s.heap.committed (a / 2 ^ k) = true

theorem invariant_initial (k : ℕ) : Invariant k initial where
  free := ⟨coalesced_nil, nofun⟩
  chunks_apart := List.Pairwise.nil
  chunk_stop := nofun
  coverage := fun _ => rfl
  object_pos := nofun
  object_dvd := nofun
  held_pos := nofun
  committed := nofun

variable {k m size : ℕ} {s : LargeSystem} {heap : LargeHeap} {range : XLargeRange} {chunks : List Span}

theorem Invariant.sound (h : Invariant k s) : s.Sound (2 ^ k) where
  tiles := tiles_of_coverage h.chunks_apart fun a => by
    rw [coverage_append, coverage_append, h.coverage]
  notAdjacent := h.free.coalesced.notAdjacent
  committed := h.committed

structure InHand (k : ℕ) (heap : LargeHeap) (range : XLargeRange) (held chunks : List Span) : Prop where
  free : XLargeMap.WellFormed (2 ^ k) heap.committed heap.largeFree
  backed : Backed (2 ^ k) heap.committed range
  chunks_apart : chunks.Pairwise Span.Apart
  chunk_stop : ∀ chunk ∈ chunks, chunk.stop + 2 ^ k ≤ 2 ^ 64
  coverage : ∀ a, coverage heap.objects a + ((if range.Contains a then 1 else 0) +
    coverage (spans heap.largeFree) a) + coverage held a = coverage chunks a
  object_pos : ∀ object ∈ heap.objects, 0 < object.size
  object_dvd : ∀ object ∈ heap.objects, 2 ^ 12 ∣ object.start
  committed : ∀ object ∈ heap.objects, ∀ a, object.Contains a → heap.committed (a / 2 ^ k) = true

theorem InHand.stop_le {held : List Span} (h : InHand k heap range held chunks)
    (hpos : 0 < range.size) : range.stop + 2 ^ k ≤ 2 ^ 64 := by
  have hcovd := h.coverage (range.stop - 1)
  rw [if_pos (Span.contains_last hpos)] at hcovd
  obtain ⟨chunk, hchunk, -, hlt⟩ :=
    coverage_pos_iff.mp (show 0 < Tilings.coverage chunks (range.stop - 1) by omega)
  have hbound := h.chunk_stop chunk hchunk
  omega

theorem InHand.coverage_le_one {held : List Span} (h : InHand k heap range held chunks) (a : ℕ) :
    Tilings.coverage (range.toSpan :: spans heap.largeFree) a ≤ 1 := by
  have hle := pairwise_apart_iff.mp h.chunks_apart a
  rw [← h.coverage] at hle
  rw [coverage_cons]
  omega

variable {scavenger : Scavenger} {chunk : XLargeRange}

/-- Allocating in the range in hand keeps the invariant. -/
theorem InHand.invariant (hk : k ≤ 64) (h : InHand k heap range scavenger.held chunks)
    (hheld : ∀ span ∈ scavenger.held, 0 < span.size) (hsize : 0 < size)
    (hdvd : 2 ^ 12 ∣ alignedStart (2 ^ m) range.start)
    (hstart : range.start ≤ alignedStart (2 ^ m) range.start)
    (hroom : alignedStart (2 ^ m) range.start + size ≤ range.stop) :
    Invariant k ⟨(heap.splitAndAllocate (2 ^ k) range (2 ^ m) size).2, chunks, scavenger⟩ ∧
      (heap.splitAndAllocate (2 ^ k) range (2 ^ m) size).1 ∈
        (heap.splitAndAllocate (2 ^ k) range (2 ^ m) size).2.objects := by
  have hpos : 0 < range.size := by
    simp only [Span.stop] at hroom
    omega
  have halloc := LargeHeap.splitAndAllocate_spec hk h.free h.backed h.coverage_le_one
    (h.stop_le hpos) hstart hroom
  set object := (heap.splitAndAllocate (2 ^ k) range (2 ^ m) size).1
  set t := (heap.splitAndAllocate (2 ^ k) range (2 ^ m) size).2
  have hobj : 0 < object.size := hsize.trans_le halloc.size_le
  have hnew : heap.largeAllocated.lookup object.start = none := by
    by_contra hsome
    obtain ⟨other, hoth⟩ := ne_none_iff_exists'.mp hsome
    have hmem : (⟨object.start, other⟩ : Span) ∈ heap.objects := LargeHeap.mem_objects.mpr hoth
    have hcont := Span.contains_start (h.object_pos _ hmem)
    have hlive := coverage_pos_iff.mpr ⟨_, hmem, hcont⟩
    have hcut := halloc.coverage object.start
    have hchunk := pairwise_apart_iff.mp h.chunks_apart object.start
    rw [if_pos (Span.contains_start hobj)] at hcut
    rw [← h.coverage, ← hcut] at hchunk
    change 0 < Tilings.coverage heap.objects object.start at hlive
    omega
  have hobjs : t.objects = object :: heap.objects := by
    rw [LargeHeap.objects, halloc.largeAllocated]
    change object :: (pairs (heap.largeAllocated.erase _)).map _ = _
    rw [erase_eq_self hnew]
    rfl
  have hall {p : Span → Prop} (hfst : p object) (hrest : ∀ other ∈ heap.objects, p other) :
      ∀ other ∈ t.objects, p other := by
    rw [hobjs]
    exact forall_mem_cons.mpr ⟨hfst, hrest⟩
  refine ⟨⟨halloc.wellFormed, h.chunks_apart, h.chunk_stop, fun a => ?_, hall hobj h.object_pos,
    hall (halloc.start_eq ▸ hdvd) h.object_dvd, hheld, hall halloc.committed fun other hmem a ha =>
      halloc.committed_mono _ (h.committed other hmem a ha)⟩, ?_⟩
  · change Tilings.coverage t.objects a + Tilings.coverage (spans t.largeFree) a +
      Tilings.coverage scavenger.held a = Tilings.coverage chunks a
    have hcut := halloc.coverage a
    rw [hobjs, coverage_cons, ← h.coverage]
    omega
  · rw [hobjs]
    exact mem_cons_self

/-- The chunk that is mapped is aligned, large enough and inside the mapping. -/
theorem tryAllocateLargeChunk_spec {mmap : ℕ → Option ℕ} (hm : m < 64) (hsize : size < 2 ^ 64)
    (hpos : 0 < size) (hmmap : ∀ mappedSize mapped, mmap mappedSize = some mapped →
      mapped + mappedSize + 2 ^ k ≤ 2 ^ 64)
    (h : tryAllocateLargeChunk mmap (2 ^ m) size = some chunk) :
    2 ^ m ∣ chunk.start ∧ size ≤ chunk.size ∧ chunk.physicalSize = 0 ∧
      ∃ mappedSize mapped, mmap mappedSize = some mapped ∧ mapped ≤ chunk.start ∧
        chunk.stop ≤ mapped + mappedSize := by
  have hchunk : chunkSize = 2 ^ 21 := rfl
  have hpow := Nat.two_pow_pos k
  unfold tryAllocateLargeChunk at h
  rw [hchunk, roundUp_two_pow (by omega) hm] at h
  simp only at h
  split_ifs at h with halignment hround
  obtain ⟨memory, hmemory, rfl⟩ := map_eq_some_iff.mp h
  have hsum : size + (2 ^ 21 - 1) < 2 ^ 64 := by
    by_contra hwrap
    rw [roundUp_eq_zero (by omega) hsize (not_lt.mp hwrap)] at hround
    exact hround hpos
  have hle := le_roundUp (by omega) hsum
  set vmSize := roundUp 64 (2 ^ 21) size
  set n := max m 21 with hn
  unfold tryVMAllocate at hmemory
  simp only [Bool.or_eq_true, decide_eq_true_eq] at hmemory
  split_ifs at hmemory with hover
  obtain ⟨mapped, hmap, rfl⟩ := map_eq_some_iff.mp hmemory
  rw [not_or, not_lt, not_lt] at hover
  have hbound := hmmap _ _ hmap
  have hn64 : n < 64 := by omega
  have hsumMapped : mapped + (2 ^ n - 1) < 2 ^ 64 := by
    omega
  have hlow := le_roundUp hn64.le hsumMapped
  have hhigh := roundUp_lt_add hn64.le hsumMapped
  refine ⟨(pow_dvd_pow 2 (le_max_left m 21)).trans (dvd_roundUp hn64.le), hle, rfl, _, mapped,
    hmap, hlow, ?_⟩
  simp only [Span.stop]
  omega

/-- A free range that is taken out is in hand. -/
theorem Invariant.inHand_of_perm (h : Invariant k s) {rest : List XLargeRange}
    (hperm : s.heap.largeFree.Perm (range :: rest)) :
    InHand k { s.heap with largeFree := rest } range s.scavenger.held s.chunks where
  free := (h.free.perm hperm).tail
  backed := h.free.backed range (hperm.mem_iff.mpr mem_cons_self)
  coverage := fun a => by
    rw [← h.coverage, coverage_spans_of_perm hperm]
    rfl
  __ := h

/-- The range in hand is put with the free ranges. -/
theorem InHand.add (h : InHand k heap range scavenger.held chunks)
    (hheld : ∀ span ∈ scavenger.held, 0 < span.size) (hpos : 0 < range.size) :
    Invariant k ⟨{ heap with largeFree := add heap.largeFree range }, chunks, scavenger⟩ := by
  obtain ⟨hwf, hfree⟩ := XLargeMap.add_spec h.free hpos h.backed h.coverage_le_one
  refine { h with free := hwf, coverage := fun a => ?_, held_pos := hheld }
  rw [hfree]
  exact h.coverage a

/-- A new chunk among the free ranges. -/
theorem Invariant.addChunk (h : Invariant k s) (hpos : 0 < chunk.size)
    (hphys : chunk.physicalSize = 0) (hstop : chunk.stop + 2 ^ k ≤ 2 ^ 64)
    (happart : ∀ other ∈ s.chunks, chunk.toSpan.Apart other) :
    Invariant k { s with
      heap := { s.heap with largeFree := add s.heap.largeFree chunk }
      chunks := chunk.toSpan :: s.chunks } := by
  have hchunks : (chunk.toSpan :: s.chunks).Pairwise Span.Apart :=
    pairwise_cons.mpr ⟨happart, h.chunks_apart⟩
  have hbacked : Backed (2 ^ k) s.heap.committed chunk := by
    obtain ⟨span, physicalSize⟩ := chunk
    obtain rfl : physicalSize = 0 := hphys
    exact backed_empty _ _ _
  have hinHand : InHand k s.heap chunk s.scavenger.held (chunk.toSpan :: s.chunks) := by
    refine { h with
      backed := hbacked
      chunks_apart := hchunks
      chunk_stop := forall_mem_cons.mpr ⟨hstop, h.chunk_stop⟩
      coverage := fun a => ?_ }
    rw [coverage_cons, ← h.coverage]
    omega
  exact hinHand.add h.held_pos hpos

/-- After a chunk was added, some free range has room for what the chunk was mapped for. -/
theorem exists_fits_of_addChunk (h : Invariant k s) (hm : m < 64) (hpos : 0 < size)
    (hsize : size ≤ chunk.size) (hdvd : 2 ^ m ∣ chunk.start) (hphys : chunk.physicalSize = 0)
    (hstop : chunk.stop + 2 ^ k ≤ 2 ^ 64) (happart : ∀ other ∈ s.chunks, chunk.toSpan.Apart other) :
    ∃ range ∈ add s.heap.largeFree chunk, XLargeMap.Fits (2 ^ m) size range := by
  have hadded := h.addChunk (hpos.trans_le hsize) hphys hstop happart
  have hcovd (a : ℕ) (ha : chunk.Contains a) :
      0 < Tilings.coverage (spans (add s.heap.largeFree chunk)) a := by
    have hcover := hadded.coverage a
    have hbefore := h.coverage a
    simp only [coverage_cons, if_pos ha] at hcover
    change Tilings.coverage s.heap.objects a + _ + Tilings.coverage s.scavenger.held a = _ at hcover
    omega
  obtain ⟨span, hspan, hlow, hhigh⟩ :=
    hadded.free.coalesced.exists_le_and_le (hpos.trans_le hsize) hcovd
  obtain ⟨range, hrng, rfl⟩ := mem_map.mp hspan
  have hrangeStop := (hadded.inHand_of_perm (perm_cons_erase hrng)).stop_le
    (hadded.free.coalesced.size_pos _ hspan)
  have hpow := Nat.two_pow_pos k
  refine ⟨range, hrng, XLargeMap.fits_of_aligned hm (by omega) hdvd hlow ?_⟩
  simp only [Span.stop] at *
  omega

/-- A free range that fits is taken out and allocated in. -/
theorem Invariant.allocate (h : Invariant k s) {rest : List XLargeRange}
    (hperm : s.heap.largeFree.Perm (range :: rest)) (hfits : XLargeMap.Fits (2 ^ m) size range)
    (hk : k ≤ 64) (hm : m < 64) (hm' : 12 ≤ m) (hpos : 0 < size) :
    let allocated := { s.heap with largeFree := rest }.splitAndAllocate (2 ^ k) range (2 ^ m) size
    Invariant k { s with heap := allocated.2 } ∧ 2 ^ m ∣ allocated.1.start ∧
      allocated.1 ∈ allocated.2.objects ∧ size ≤ allocated.1.size := by
  have hinHand := h.inHand_of_perm hperm
  have hstop := hinHand.stop_le (hpos.trans_le hfits.1)
  have hpow := Nat.two_pow_pos k
  have hdvd := XLargeMap.dvd_alignedStart hm range.start
  obtain ⟨hstart, hroom⟩ := hfits.alignedStart_le (by omega)
  have halloc := LargeHeap.splitAndAllocate_spec hk hinHand.free hinHand.backed
    hinHand.coverage_le_one hstop hstart hroom
  obtain ⟨hinv, hobj⟩ :=
    hinHand.invariant hk h.held_pos hpos ((pow_dvd_pow 2 hm').trans hdvd) hstart hroom
  exact ⟨hinv, halloc.start_eq ▸ hdvd, hobj, halloc.size_le⟩

theorem rounded_pos_and_lt {roundedSize : ℕ}
    (h : roundedSize = if size = 0 then largeAlignment else roundUp 64 largeAlignment size)
    (hle : size ≤ roundedSize) : 0 < roundedSize ∧ roundedSize < 2 ^ 64 := by
  rw [show largeAlignment = 2 ^ 12 from rfl] at h
  split_ifs at h with hzero
  · omega
  · refine ⟨by omega, ?_⟩
    rw [h]
    exact roundUp_lt (by omega)

section

variable (h : Invariant k s)

include h

/-- An allocation has a result, which is aligned and large enough when it is an object. -/
theorem Invariant.tryAllocateLarge (hk : k ≤ 64) {mmap : ℕ → Option ℕ}
    {alignment size : ℕ} (hlegal : s.Legal (2 ^ k) (.tryAllocateLarge mmap alignment size)) :
    ∃ allocation, s.heap.tryAllocateLarge (2 ^ k) mmap alignment size = some allocation ∧
      Invariant k { s with
        heap := allocation.heap
        chunks := allocation.mapped.toList ++ s.chunks } ∧
      ∀ address, allocation.object = some address → alignment ∣ address ∧
        ∃ object ∈ allocation.heap.objects, object.start = address ∧ size ≤ object.size := by
  obtain ⟨⟨m, hm, rfl⟩, -, hmmap⟩ := hlegal
  have hpage : ∀ mappedSize mapped, mmap mappedSize = some mapped →
      mapped + mappedSize + 2 ^ k ≤ 2 ^ 64 := by
    intro mappedSize mapped hmap
    obtain ⟨hdvd, hlt, -⟩ := hmmap mappedSize mapped hmap
    have hroom := Nat.le_of_dvd (Nat.sub_pos_of_lt hlt) (Nat.dvd_sub (pow_dvd_pow 2 hk) hdvd)
    omega
  unfold LargeHeap.tryAllocateLarge
  extract_lets roundedSize roundedAlignment
  have hround : roundedSize = if size = 0 then largeAlignment
    else roundUp 64 largeAlignment size := rfl
  have hroundedAlignment : roundedAlignment = 2 ^ max m 12 := by
    unfold roundedAlignment
    rw [show largeAlignment = 2 ^ 12 from rfl, roundUp_two_pow (by omega) hm]
  clear_value roundedSize roundedAlignment
  subst hroundedAlignment
  split_ifs with hover halignment
  · exact ⟨_, rfl, h, nofun⟩
  · exact ⟨_, rfl, h, nofun⟩
  rw [not_lt] at hover
  obtain ⟨hpos, hroundedSize⟩ := rounded_pos_and_lt hround hover
  have hm' : max m 12 < 64 := by omega
  have hdvd : 2 ^ m ∣ 2 ^ max m 12 := pow_dvd_pow 2 (le_max_left m 12)
  rcases XLargeMap.remove_spec s.heap.largeFree (2 ^ max m 12) roundedSize with
    ⟨range, rest, hrem, hperm, hfits⟩ | ⟨hrem, -⟩
  · rw [hrem]
    obtain ⟨hinv, halign, hobj, hobjSize⟩ :=
      h.allocate hperm hfits hk hm' (le_max_right m 12) hpos
    refine ⟨_, rfl, hinv, fun address haddress => ?_⟩
    cases haddress
    exact ⟨hdvd.trans halign, _, hobj, rfl, hover.trans hobjSize⟩
  · rw [hrem]
    cases hchunk : tryAllocateLargeChunk mmap (2 ^ max m 12) roundedSize with
    | none => exact ⟨_, rfl, h, nofun⟩
    | some chunk =>
      obtain ⟨hchunkDvd, hchunkSize, hphys, mappedSize, mapped, hmap, hlow, hhigh⟩ :=
        tryAllocateLargeChunk_spec hm' hroundedSize hpos hpage hchunk
      have hbound := hpage mappedSize mapped hmap
      have happart := (hmmap mappedSize mapped hmap).2.2
      have hchunkApart : ∀ other ∈ s.chunks, chunk.toSpan.Apart other := by
        intro other hoth a ha
        refine happart other hoth a ?_
        simp only [Span.Contains, Span.stop] at *
        omega
      have hstop : chunk.stop + 2 ^ k ≤ 2 ^ 64 := by omega
      obtain ⟨range', hrng', hfits'⟩ := exists_fits_of_addChunk h hm' hpos hchunkSize hchunkDvd
        hphys hstop hchunkApart
      rcases XLargeMap.remove_spec (add s.heap.largeFree chunk) (2 ^ max m 12) roundedSize
        with ⟨range, rest, hrem', hperm, hfits⟩ | ⟨-, hnone⟩
      · have hadded := h.addChunk (hpos.trans_le hchunkSize) hphys hstop hchunkApart
        obtain ⟨hinv, halign, hobj, hobjSize⟩ :=
          hadded.allocate hperm hfits hk hm' (le_max_right m 12) hpos
        simp only [hrem', map_some]
        refine ⟨_, rfl, hinv, fun address haddress => ?_⟩
        cases haddress
        exact ⟨hdvd.trans halign, _, hobj, rfl, hover.trans hobjSize⟩
      · exact absurd hfits' (hnone range' hrng')

/-- Without one of the objects, its range is in hand. -/
theorem Invariant.inHand_of_lookup (object : Span)
    (hlive : s.heap.largeAllocated.lookup object.start = some object.size) :
    InHand k { s.heap with largeAllocated := s.heap.largeAllocated.erase object.start }
      ⟨object, object.size⟩ s.scavenger.held s.chunks := by
  have hmem : object ∈ s.heap.objects := LargeHeap.mem_objects.mpr hlive
  have hsub := LargeHeap.objects_erase_subset s.heap object.start
  refine ⟨h.free, ⟨le_rfl, fun a hlow hhigh => h.committed _ hmem a ⟨hlow, hhigh⟩⟩, h.chunks_apart,
    h.chunk_stop, fun a => ?_, fun other hoth => h.object_pos other (hsub hoth),
    fun other hoth => h.object_dvd other (hsub hoth),
    fun other hoth => h.committed other (hsub hoth)⟩
  rw [← h.coverage, LargeHeap.coverage_objects_of_lookup hlive,
    show (⟨object.start, object.size⟩ : Span) = object from rfl]
  dsimp only
  omega

/-- An object that is freed becomes a free range that is backed by committed pages. -/
theorem Invariant.deallocateLarge {object : ℕ}
    (hlive : s.heap.largeAllocated.lookup object = some size) :
    ∃ t, s.step (2 ^ k) (.deallocateLarge object) = some t ∧ Invariant k t := by
  have hmem : (⟨object, size⟩ : Span) ∈ s.heap.objects := LargeHeap.mem_objects.mpr hlive
  have hinHand := h.inHand_of_lookup ⟨object, size⟩ hlive
  refine ⟨_, ?_, hinHand.add h.held_pos (h.object_pos _ hmem)⟩
  rw [step, LargeHeap.deallocateLarge, hlive, map_some, map_some]

theorem Invariant.shrinkLarge (hk : k ≤ 64) {object : Span} {newSize : ℕ}
    (hlive : s.heap.largeAllocated.lookup object.start = some object.size) (hpos : 0 < newSize)
    (hlt : newSize < object.size) :
    ∃ t, s.step (2 ^ k) (.shrinkLarge object newSize) = some t ∧ Invariant k t := by
  have hdvd := h.object_dvd object (LargeHeap.mem_objects.mpr hlive)
  have hstart : alignedStart (2 ^ 3) object.start = object.start := by
    unfold alignedStart
    rw [if_neg]
    rw [XLargeMap.test_two_pow, not_not]
    exact (pow_dvd_pow 2 (by omega : 3 ≤ 12)).trans hdvd
  obtain ⟨hinv, -⟩ := (h.inHand_of_lookup object hlive).invariant (m := 3) hk h.held_pos hpos
    (hstart.symm ▸ hdvd) hstart.ge (by
      rw [hstart]
      exact Nat.add_le_add_left hlt.le _)
  refine ⟨_, ?_, hinv⟩
  rw [step, LargeHeap.shrinkLarge, hlive, map_some, map_some]
  rfl

/-- What the scavenger holds is in hand, without a physical part. -/
theorem Invariant.inHand_of_held (hheld : s.scavenger.held = [range.toSpan]) :
    InHand k s.heap ⟨range.toSpan, 0⟩ [] s.chunks := by
  refine { h with backed := backed_empty _ _ _, coverage := fun a => ?_ }
  have hcovd := h.coverage a
  rw [hheld, coverage_cons, coverage_nil] at hcovd
  rw [coverage_nil, ← hcovd]
  dsimp only
  omega

theorem Invariant.scavengeRemove (hidle : s.scavenger = .idle) :
    ∃ t, s.step (2 ^ k) .scavengeRemove = some t ∧ Invariant k t := by
  rw [step, hidle]
  cases hrem : XLargeMap.removePhysical s.heap.largeFree with
  | none => exact ⟨s, rfl, h⟩
  | some removed =>
    have hperm := XLargeMap.removePhysical_perm hrem
    have hfree := h.free.perm hperm
    refine ⟨_, rfl, { h with free := hfree.tail, coverage := fun a => ?_, held_pos := ?_ }⟩
    · have hcovd := h.coverage a
      rw [hidle, coverage_spans_of_perm hperm] at hcovd
      rw [← hcovd]
      simp only [Scavenger.held, coverage_cons, coverage_nil]
      change Tilings.coverage s.heap.objects a + _ + _ = _
      omega
    · exact forall_mem_singleton.mpr hfree.coalesced.head_pos

/-- Pages are decommitted only when all their bytes are in the range that the scavenger holds. -/
theorem Invariant.scavengeDecommit (hk : k ≤ 64) (hrem : s.scavenger = .removed range) :
    ∃ t, s.step (2 ^ k) .scavengeDecommit = some t ∧ Invariant k t := by
  have hheld : s.scavenger.held = [range.toSpan] := by rw [hrem]; rfl
  have hpos := h.held_pos range.toSpan (by rw [hheld]; exact mem_singleton_self _)
  have hstop := (h.inHand_of_held hheld).stop_le hpos
  have hkeep (a : ℕ) (hcovd : 0 < Tilings.coverage s.heap.objects a +
      Tilings.coverage (spans s.heap.largeFree) a) (hcomm : s.heap.committed (a / 2 ^ k)) :
      vmDeallocatePhysicalPagesSloppy (2 ^ k) s.heap.committed range.start range.size (a / 2 ^ k) =
        true := by
    have hout : ¬range.Contains a := by
      intro hcont
      have hle := pairwise_apart_iff.mp h.chunks_apart a
      rw [← h.coverage, hheld, coverage_cons, if_pos hcont] at hle
      omega
    rw [vmDeallocate_of_not_mem hk hstop hout, hcomm]
  rw [step, hrem]
  refine ⟨_, rfl, ⟨h.free.coalesced, fun free hfree => ⟨(h.free.backed free hfree).physicalSize_le,
    fun a hlow hhigh => hkeep a ?_ ((h.free.backed free hfree).committed_of_lt a hlow hhigh)⟩⟩,
    h.chunks_apart, h.chunk_stop, fun a => ?_, h.object_pos, h.object_dvd, ?_,
    fun object hobj a ha => hkeep a ?_ (h.committed object hobj a ha)⟩
  · have hle := (h.free.backed free hfree).physicalSize_le
    have hcont : free.Contains a := ⟨hlow, hhigh.trans_le (Nat.add_le_add_left hle _)⟩
    exact Nat.add_pos_right _
      (coverage_pos_iff.mpr ⟨free.toSpan, mem_map_of_mem hfree, hcont⟩)
  · have hcovd := h.coverage a
    rw [hheld] at hcovd
    exact hcovd
  · exact forall_mem_singleton.mpr hpos
  · exact Nat.add_pos_left (coverage_pos_iff.mpr ⟨object, hobj, ha⟩) _

theorem Invariant.scavengeAdd (hdecomm : s.scavenger = .decommitted range) :
    ∃ t, s.step (2 ^ k) .scavengeAdd = some t ∧ Invariant k t := by
  have hheld : s.scavenger.held = [range.toSpan] := by rw [hdecomm]; rfl
  have hpos := h.held_pos range.toSpan (by rw [hheld]; exact mem_singleton_self _)
  have hinv : Invariant k ⟨{ s.heap with
      largeFree := add s.heap.largeFree ⟨range.toSpan, 0⟩ }, s.chunks, .idle⟩ :=
    (h.inHand_of_held hheld).add nofun hpos
  refine ⟨_, ?_, hinv⟩
  rw [step, hdecomm]

/-- A legal step from a state that satisfies the invariant is as it should be and keeps it. -/
theorem Invariant.step_sound (hk : k ≤ 64) {event : LargeEvent} (hlegal : s.Legal (2 ^ k) event) :
    s.StepSound (2 ^ k) event ∧ ∀ t, s.step (2 ^ k) event = some t → Invariant k t := by
  have hstep : ∃ t, s.step (2 ^ k) event = some t ∧ Invariant k t := by
    cases event with
    | tryAllocateLarge mmap alignment size =>
      obtain ⟨allocation, hallocation, hinv, -⟩ := h.tryAllocateLarge hk hlegal
      refine ⟨_, ?_, hinv⟩
      rw [step, hallocation, map_some]
    | deallocateLarge object =>
      obtain ⟨size, hlive⟩ := ne_none_iff_exists'.mp hlegal
      exact h.deallocateLarge hlive
    | shrinkLarge object newSize =>
      obtain ⟨hlive, hlow, hhigh⟩ := hlegal
      exact h.shrinkLarge hk hlive (Nat.zero_lt_of_lt hlow) hhigh
    | scavengeRemove => exact h.scavengeRemove hlegal
    | scavengeDecommit =>
      obtain ⟨range, hrem⟩ := hlegal
      exact h.scavengeDecommit hk hrem
    | scavengeAdd =>
      obtain ⟨range, hdecomm⟩ := hlegal
      exact h.scavengeAdd hdecomm
  obtain ⟨t, ht, hinv⟩ := hstep
  refine ⟨⟨⟨t, ht⟩, ?_⟩, fun t' ht' => ?_⟩
  · rintro mmap alignment size rfl
    obtain ⟨allocation, hallocation, -, hobj⟩ := h.tryAllocateLarge hk hlegal
    exact ⟨allocation, hallocation, hobj⟩
  · cases ht.symm.trans ht'
    exact hinv

end

/-- In every run of legal steps objects and free ranges tile the chunks, objects are on committed
pages, and what is returned is aligned and large enough. -/
theorem always_sound (hk : k ≤ 64) {events : List LargeEvent}
    (hlegal : Guarded (step (2 ^ k)) (Legal (2 ^ k)) initial events) :
    Always (step (2 ^ k)) (Sound (2 ^ k)) (StepSound (2 ^ k)) initial events :=
  always_of_guarded _ (fun _ => Invariant.sound) (fun _ _ h hlegal => h.step_sound hk hlegal)
    (invariant_initial k) hlegal

def freshAllocation : LargeEvent :=
  .tryAllocateLarge (fun size => if size = 2 ^ 22 then some (2 ^ 21) else none) (2 ^ 3) 40000

theorem always_sound_allocatedAndScavenged :
    Always (step (2 ^ 12)) (Sound (2 ^ 12)) (StepSound (2 ^ 12)) initial
      [freshAllocation, .shrinkLarge ⟨2 ^ 21, 40960⟩ 36000, .deallocateLarge (2 ^ 21), .scavengeRemove,
        .scavengeDecommit, .scavengeAdd] := by
  refine always_sound (by decide) ?_
  have halloc : ((run (step (2 ^ 12)) initial [freshAllocation]).bind fun s =>
      s.heap.largeAllocated.lookup (2 ^ 21)) = some 40960 := by decide +kernel
  have hshrunk : ((run (step (2 ^ 12)) initial
      [freshAllocation, .shrinkLarge ⟨2 ^ 21, 40960⟩ 36000]).bind fun s =>
        s.heap.largeAllocated.lookup (2 ^ 21)) = some 36000 := by decide +kernel
  have hrem : ((run (step (2 ^ 12)) initial
      [freshAllocation, .shrinkLarge ⟨2 ^ 21, 40960⟩ 36000, .deallocateLarge (2 ^ 21),
        .scavengeRemove]).map fun s => s.scavenger matches .removed _) = some true := by decide +kernel
  simp only [run_cons] at halloc hshrunk hrem
  refine Guarded.cons _ ⟨⟨3, by decide, rfl⟩, by omega, fun mappedSize mapped hmap => ?_⟩
    fun s hs => ?_
  · beta_reduce at hmap
    split_ifs at hmap with hsize
    cases hmap
    rw [hsize]
    exact ⟨by omega, by omega, nofun⟩
  rw [hs, bind_some] at halloc hshrunk hrem
  refine Guarded.cons _ ⟨halloc, by decide, by decide⟩ fun t ht => ?_
  rw [ht, bind_some] at hshrunk hrem
  refine Guarded.cons _ (ne_none_iff_exists'.mpr ⟨_, hshrunk⟩) fun u hu => ?_
  rw [hu, bind_some] at hrem
  have hidle : u.scavenger = .idle := by
    obtain ⟨_, -, rfl⟩ := map_eq_some_iff.mp hs
    obtain ⟨_, -, rfl⟩ := map_eq_some_iff.mp ht
    obtain ⟨_, -, rfl⟩ := map_eq_some_iff.mp hu
    rfl
  refine Guarded.cons _ hidle fun v hv => ?_
  rw [hv, bind_some] at hrem
  obtain ⟨range, hrng⟩ : ∃ range, v.scavenger = .removed range := by
    cases hscav : v.scavenger with
    | removed range => exact ⟨range, rfl⟩
    | idle => simp [run_nil, hscav] at hrem
    | decommitted range => simp [run_nil, hscav] at hrem
  refine Guarded.cons _ ⟨range, hrng⟩ fun w hw => ?_
  rw [step, hrng] at hw
  cases hw
  exact Guarded.cons _ ⟨range, rfl⟩ fun x _ => guarded_nil _ _ x

end LargeSystem

end WebKit.BMalloc
