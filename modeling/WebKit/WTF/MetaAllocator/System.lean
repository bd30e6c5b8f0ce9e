import WebKit.Foundation.Alignment
import WebKit.Foundation.Runs
import WebKit.WTF.MetaAllocator.PageAccounts

/-!
The allocator of executable memory with its live handles. An allocation takes the smallest free node
that fits before it reserves new space, and a handle that is shrunk or released gives its space back.
A run keeps handles and free nodes a tiling of the reserved space, except when a handle that does
not start at a page is shrunk to nothing and when the number of requested pages wraps.
-/

namespace WebKit

open List HashMaps Runs Tilings
open Tilings.Span (stop size)

structure MetaAllocator where
  allocationGranule : ℕ
  pageSize : ℕ
  logPageSize : ℕ
  freeSpace : FreeSpace
  accounts : PageAccounts
  bytesAllocated : ℕ
  bytesReserved : ℕ

namespace MetaAllocator

def logOfSize (size : ℕ) : ℕ := ((range 32).find? fun k => 2 ^ k = size).getD 32

theorem logOfSize_two_pow {k : ℕ} (hk : k ≤ 32) : logOfSize (2 ^ k) = k := by
  unfold logOfSize
  cases hfind : (range 32).find? fun i => 2 ^ i = 2 ^ k with
  | some i =>
    have hpow : 2 ^ i = 2 ^ k := by simpa using find?_some hfind
    exact Nat.pow_right_injective le_rfl hpow
  | none =>
    rw [find?_eq_none] at hfind
    by_contra hne
    rw [Option.getD_none] at hne
    exact hfind k (mem_range.mpr (lt_of_le_of_ne hk (Ne.symm hne))) (by simp)

def make (allocationGranule pageSize : ℕ) : MetaAllocator where
  allocationGranule := allocationGranule
  pageSize := pageSize
  logPageSize := logOfSize pageSize
  freeSpace := .empty
  accounts := ⟨∅, 0⟩
  bytesAllocated := 0
  bytesReserved := 0

variable (s : MetaAllocator)

def roundUp (sizeInBytes : ℕ) : Option ℕ :=
  if 2 ^ 64 - 1 - s.allocationGranule ≤ sizeInBytes then none
  else some (Alignment.roundUp 64 s.allocationGranule sizeInBytes)

variable (start sizeInBytes : ℕ)

def addFreeSpaceFromReleasedHandle : MetaAllocator :=
  { s with
    bytesAllocated := s.bytesAllocated - sizeInBytes
    freeSpace := s.freeSpace.addFreeSpace start sizeInBytes }

def addFreshFreeSpace : MetaAllocator :=
  { s with
    bytesReserved := s.bytesReserved + sizeInBytes
    freeSpace := s.freeSpace.addFreeSpace start sizeInBytes }

def requestedNumberOfPages (sizeInBytes : ℕ) : ℕ :=
  ((sizeInBytes + s.pageSize - 1) % 2 ^ 64) >>> s.logPageSize

def finishAllocation : MetaAllocator :=
  { s with
    accounts := s.accounts.incrementPageOccupancy s.pageSize s.logPageSize start sizeInBytes
    bytesAllocated := s.bytesAllocated + sizeInBytes }

def takeNewSpace (start numberOfPages sizeInBytes : ℕ) : MetaAllocator :=
  let roundedUpSize := numberOfPages <<< s.logPageSize
  { s with
    bytesReserved := s.bytesReserved + roundedUpSize
    freeSpace :=
      if sizeInBytes < roundedUpSize then
        s.freeSpace.addFreeSpace (start + sizeInBytes) (roundedUpSize - sizeInBytes)
      else s.freeSpace }

structure Allocation where
  allocator : MetaAllocator
  handle : Option MetaAllocatorHandle
  reserved : Option Span

def allocate (search : SizeSearch) (allocateNewSpace : ℕ → Option (ℕ × ℕ)) (s : MetaAllocator)
    (sizeInBytes : ℕ) : Option Allocation :=
  if sizeInBytes = 0 then some ⟨s, none, none⟩
  else
    (s.roundUp sizeInBytes).map fun sizeInBytes =>
      match s.freeSpace.findAndRemoveFreeSpace search s.logPageSize sizeInBytes with
      | (some start, freeSpace) =>
        ⟨{ s with freeSpace := freeSpace }.finishAllocation start sizeInBytes,
          some ⟨start, sizeInBytes⟩, none⟩
      | (none, _) =>
        match allocateNewSpace (s.requestedNumberOfPages sizeInBytes) with
        | none => ⟨s, none, none⟩
        | some (start, numberOfPages) =>
          ⟨(s.takeNewSpace start numberOfPages sizeInBytes).finishAllocation start sizeInBytes,
            some ⟨start, sizeInBytes⟩, some ⟨start, numberOfPages <<< s.logPageSize⟩⟩

def release (handle : MetaAllocatorHandle) : Option MetaAllocator :=
  if handle.size = 0 then some s
  else
    (s.accounts.decrementPageOccupancy s.pageSize s.logPageSize handle.start handle.size).map
      fun accounts =>
        { s with accounts := accounts }.addFreeSpaceFromReleasedHandle handle.start handle.size

def shrink (handle : MetaAllocatorHandle) (newSizeInBytes : ℕ) :
    Option (MetaAllocator × MetaAllocatorHandle) :=
  (s.roundUp newSizeInBytes).bind fun newSizeInBytes =>
    if newSizeInBytes = handle.size then some (s, handle)
    else
      let freeStart := handle.start + newSizeInBytes
      let freeSize := handle.size - newSizeInBytes
      let freeEnd := freeStart + freeSize
      let firstCompletelyFreePage := Alignment.roundUp 64 s.pageSize freeStart
      let accounts :=
        if firstCompletelyFreePage < freeEnd then
          s.accounts.decrementPageOccupancy s.pageSize s.logPageSize firstCompletelyFreePage
            (freeSize - (firstCompletelyFreePage - freeStart))
        else some s.accounts
      accounts.map fun accounts =>
        ({ s with accounts := accounts }.addFreeSpaceFromReleasedHandle freeStart freeSize,
          ⟨handle.start, newSizeInBytes⟩)

structure System where
  allocator : MetaAllocator
  handles : List MetaAllocatorHandle
  spaces : List Span

/-- The calls. A handle is given by its position in the list of live handles. -/
inductive Event where
  | addFreshFreeSpace (start sizeInBytes : ℕ)
  | allocate (search : SizeSearch) (allocateNewSpace : ℕ → Option (ℕ × ℕ)) (sizeInBytes : ℕ)
  | shrink (handle newSizeInBytes : ℕ)
  | release (handle : ℕ)

namespace System

def make (allocationGranule pageSize : ℕ) : System :=
  ⟨MetaAllocator.make allocationGranule pageSize, [], []⟩

variable (s : System)

def step : Event → Option System
  | .addFreshFreeSpace start sizeInBytes =>
    some { s with
      allocator := s.allocator.addFreshFreeSpace start sizeInBytes
      spaces := ⟨start, sizeInBytes⟩ :: s.spaces }
  | .allocate search allocateNewSpace sizeInBytes =>
    (s.allocator.allocate search allocateNewSpace sizeInBytes).map fun allocation =>
      ⟨allocation.allocator, allocation.handle.toList ++ s.handles,
        allocation.reserved.toList ++ s.spaces⟩
  | .shrink index newSizeInBytes =>
    s.handles[index]?.bind fun handle =>
      (s.allocator.shrink handle newSizeInBytes).map fun (allocator, handle) =>
        { s with allocator := allocator, handles := s.handles.set index handle }
  | .release index =>
    s.handles[index]?.bind fun handle =>
      (s.allocator.release handle).map fun allocator =>
        { s with allocator := allocator, handles := s.handles.eraseIdx index }

structure Fresh (s : System) (space : Span) : Prop where
  start_pos : 0 < space.start
  stop_lt : space.stop < 2 ^ 64
  start_dvd : s.allocator.pageSize ∣ space.start
  size_dvd : s.allocator.pageSize ∣ space.size
  apart : ∀ other ∈ s.spaces, space.Apart other

/-- Reserved spaces are fresh, new space has at least the pages that were asked for, and a live
handle is shrunk to at most its size. -/
def Legal : Event → Prop
  | .addFreshFreeSpace start sizeInBytes => 0 < sizeInBytes ∧ s.Fresh ⟨start, sizeInBytes⟩
  | .allocate _ allocateNewSpace _ =>
    ∀ requested start numberOfPages, allocateNewSpace requested = some (start, numberOfPages) →
      requested ≤ numberOfPages ∧ s.Fresh ⟨start, numberOfPages * s.allocator.pageSize⟩
  | .shrink index newSizeInBytes => ∃ handle, s.handles[index]? = some handle ∧
      newSizeInBytes ≤ handle.size
  | .release index => index < s.handles.length

def Crashes : Event → Prop
  | .allocate _ _ sizeInBytes => sizeInBytes ≠ 0 ∧ s.allocator.roundUp sizeInBytes = none
  | .shrink _ newSizeInBytes => s.allocator.roundUp newSizeInBytes = none
  | _ => False

structure Sound (s : System) : Prop where
  tiles : Tiles (s.handles ++ s.allocator.freeSpace.spans) s.spaces
  notAdjacent : s.allocator.freeSpace.spans.Pairwise NotAdjacent
  indexed : s.allocator.freeSpace.Indexed
  bytesAllocated : s.allocator.bytesAllocated = (s.handles.map size).sum
  occupancy : ∀ page, (s.allocator.accounts.pageOccupancyMap.lookup page).getD 0 =
    handlesIn s.allocator.pageSize s.handles page
  bytesCommitted : s.allocator.accounts.bytesCommitted = s.allocator.pageSize *
    {page | ∃ handle ∈ s.handles, HasByteIn s.allocator.pageSize page handle}.ncard

def BestFit (s t : System) (sizeInBytes : ℕ) : Prop :=
  (∃ node ∈ s.allocator.freeSpace.spans, sizeInBytes ≤ node.size) →
    ∃ node ∈ s.allocator.freeSpace.spans, ∃ start, sizeInBytes ≤ node.size ∧
      (∀ other ∈ s.allocator.freeSpace.spans, sizeInBytes ≤ other.size → node.size ≤ other.size) ∧
      node.start ≤ start ∧ start + sizeInBytes ≤ node.stop ∧
      t.handles = ⟨start, sizeInBytes⟩ :: s.handles ∧ t.spaces = s.spaces

def StepSound (event : Event) : Prop :=
  s.Crashes event ∨ ∃ t, s.step event = some t ∧
    ∀ search allocateNewSpace requested sizeInBytes,
      event = .allocate search allocateNewSpace requested → requested ≠ 0 →
        s.allocator.roundUp requested = some sizeInBytes → BestFit s t sizeInBytes

/-- A handle that does not start at a page is shrunk to nothing, or an allocation whose number of
pages wraps is given new space. -/
def Defect : Event → Prop
  | .shrink index newSizeInBytes => newSizeInBytes = 0 ∧ ∃ handle, s.handles[index]? = some handle ∧
      0 < handle.size ∧ ¬s.allocator.pageSize ∣ handle.start
  | .allocate _ allocateNewSpace requested => requested ≠ 0 ∧ ∃ sizeInBytes,
      s.allocator.roundUp requested = some sizeInBytes ∧
        2 ^ 64 ≤ sizeInBytes + s.allocator.pageSize - 1 ∧
        (∀ node ∈ s.allocator.freeSpace.spans, node.size < sizeInBytes) ∧
        allocateNewSpace (s.allocator.requestedNumberOfPages sizeInBytes) ≠ none
  | _ => False

structure Invariant (j k : ℕ) (s : System) : Prop where
  granule : s.allocator.allocationGranule = 2 ^ j
  pageSize : s.allocator.pageSize = 2 ^ k
  logPageSize : s.allocator.logPageSize = k
  freeSpace : s.allocator.freeSpace.WellFormed
  spaces_apart : s.spaces.Pairwise Span.Apart
  space_stop : ∀ space ∈ s.spaces, space.stop + 2 ^ k ≤ 2 ^ 64
  coverage : ∀ a, coverage s.handles a + coverage s.allocator.freeSpace.spans a = coverage s.spaces a
  bytesAllocated : s.allocator.bytesAllocated = (s.handles.map size).sum
  occupied : s.allocator.accounts.Occupied (2 ^ k) (handlesIn (2 ^ k) s.handles)
  handle_dvd : ∀ handle ∈ s.handles, 2 ^ j ∣ handle.size

namespace Invariant

variable {j k : ℕ} {s : System}

theorem make (hk : k ≤ 32) : Invariant j k (System.make (2 ^ j) (2 ^ k)) where
  granule := rfl
  pageSize := rfl
  logPageSize := logOfSize_two_pow hk
  freeSpace := FreeSpace.wellFormed_empty
  spaces_apart := List.Pairwise.nil
  space_stop := nofun
  coverage := fun _ => rfl
  bytesAllocated := rfl
  occupied := ⟨fun page => by simp [System.make, MetaAllocator.make, handlesIn], by
    simp [System.make, MetaAllocator.make]⟩
  handle_dvd := nofun

theorem sound (h : Invariant j k s) : s.Sound where
  tiles := tiles_of_coverage h.spaces_apart fun a => by rw [coverage_append, h.coverage]
  notAdjacent := h.freeSpace.coalesced.notAdjacent
  indexed := h.freeSpace.indexed
  bytesAllocated := h.bytesAllocated
  occupancy := by
    intro page
    rw [h.occupied.lookup page, h.pageSize]
    split_ifs with hzero
    · exact hzero.symm
    · rfl
  bytesCommitted := by
    have hset : {page | ∃ handle ∈ s.handles, HasByteIn s.allocator.pageSize page handle} =
        (s.allocator.accounts.pageOccupancyMap.keys.toFinset : Set ℕ) := by
      ext page
      rw [Set.mem_ofPred_eq, ← handlesIn_pos_iff, coe_toFinset, Set.mem_ofPred_eq, mem_keys_iff,
        h.pageSize, h.occupied.lookup page, Nat.pos_iff_ne_zero]
      split_ifs with hzero
      · exact iff_of_false (fun hne => hne hzero) fun ⟨_, hsome⟩ => absurd hsome nofun
      · exact iff_of_true hzero ⟨_, rfl⟩
    rw [hset, Set.ncard_coe_finset, toFinset_card_of_nodup (AList.keys_nodup _), h.pageSize,
      h.occupied.committed]

/-- Handles and free nodes end inside the reserved spaces. -/
theorem stop_le (h : Invariant j k s) {span : Span} (hpos : 0 < span.size)
    (hmem : span ∈ s.handles ∨ span ∈ s.allocator.freeSpace.spans) : span.stop + 2 ^ k ≤ 2 ^ 64 := by
  have hlast := Span.contains_last hpos
  have hcovd : 0 < Tilings.coverage s.spaces (span.stop - 1) := by
    rw [← h.coverage]
    rcases hmem with hmem | hmem
    · exact Nat.add_pos_left (coverage_pos_iff.mpr ⟨span, hmem, hlast⟩) _
    · exact Nat.add_pos_right _ (coverage_pos_iff.mpr ⟨span, hmem, hlast⟩)
  obtain ⟨space, hspace, -, hlt⟩ := coverage_pos_iff.mp hcovd
  have hbound := h.space_stop space hspace
  omega

/-- A part of a live handle is apart from the free nodes. -/
theorem apart_of_handle (h : Invariant j k s) {handle : Span} (hmem : handle ∈ s.handles)
    (part : Span) (hpart : ∀ a, part.Contains a → handle.Contains a) :
    ∀ other ∈ s.allocator.freeSpace.spans, part.Apart other := by
  intro other hoth a hcont hfree
  have hle := pairwise_apart_iff.mp h.spaces_apart a
  rw [← h.coverage] at hle
  have hhandle := coverage_pos_iff.mpr ⟨handle, hmem, hpart a hcont⟩
  have hfree := coverage_pos_iff.mpr ⟨other, hoth, hfree⟩
  omega

variable {space : Span} {start bytes requested freed index : ℕ} {search : SizeSearch}
  {allocateNewSpace : ℕ → Option (ℕ × ℕ)} {handle : MetaAllocatorHandle}

section

variable (h : Invariant j k s)

include h

/-- A fresh space is apart from everything that is in use. -/
theorem apart_of_fresh (hfresh : s.Fresh space) (part : Span)
    (hpart : ∀ a, part.Contains a → space.Contains a) :
    ∀ other ∈ s.allocator.freeSpace.spans, part.Apart other := by
  intro other hoth a hcont hfree
  have hpos : 0 < Tilings.coverage s.spaces a := by
    rw [← h.coverage]
    exact Nat.add_pos_right _ (coverage_pos_iff.mpr ⟨other, hoth, hfree⟩)
  obtain ⟨reserved, hreserved, hin⟩ := coverage_pos_iff.mp hpos
  exact hfresh.apart reserved hreserved a (hpart a hcont) hin

theorem stop_of_fresh (hfresh : s.Fresh space) (hk : k ≤ 32) : space.stop + 2 ^ k ≤ 2 ^ 64 := by
  have hdvd : 2 ^ k ∣ space.stop := by
    have hstart := hfresh.start_dvd
    have hsize := hfresh.size_dvd
    rw [h.pageSize] at hstart hsize
    exact Nat.dvd_add hstart hsize
  have hword : 2 ^ k ∣ 2 ^ 64 := pow_dvd_pow 2 (by omega)
  have hsub := Nat.le_of_dvd (Nat.sub_pos_of_lt hfresh.stop_lt) (Nat.dvd_sub hword hdvd)
  omega

theorem spaces_cons (hfresh : s.Fresh space) : (space :: s.spaces).Pairwise Span.Apart :=
  pairwise_cons.mpr ⟨hfresh.apart, h.spaces_apart⟩

theorem addFreshFreeSpace (hk : k ≤ 32) (hpos : 0 < bytes) (hfresh : s.Fresh ⟨start, bytes⟩) :
    Invariant j k { s with
      allocator := s.allocator.addFreshFreeSpace start bytes
      spaces := ⟨start, bytes⟩ :: s.spaces } := by
  have hadds := FreeSpace.addFreeSpace_spec h.freeSpace hpos
    (h.apart_of_fresh hfresh _ fun _ hcont => hcont)
  have hcover (a : ℕ) : Tilings.coverage s.handles a +
      Tilings.coverage (s.allocator.freeSpace.addFreeSpace start bytes).spans a =
        Tilings.coverage (⟨start, bytes⟩ :: s.spaces) a := by
    rw [hadds.coverage, coverage_cons, ← h.coverage]
    exact Nat.add_left_comm _ _ _
  exact {
    h with
    freeSpace := hadds.wellFormed
    spaces_apart := h.spaces_cons hfresh
    space_stop := forall_mem_cons.mpr ⟨h.stop_of_fresh hfresh hk, h.space_stop⟩
    coverage := hcover }

omit h in
theorem mem_pages_iff_hasByteIn (handle : MetaAllocatorHandle) {page : ℕ} (hstop : handle.stop ≤ 2 ^ 64)
    (hpos : 0 < handle.size) :
    page ∈ PageAccounts.pages k handle.start handle.size ↔ HasByteIn (2 ^ k) page handle := by
  rw [PageAccounts.mem_pages hstop, hasByteIn_iff (Nat.two_pow_pos k)]
  exact (and_iff_right hpos).symm

/-- A new handle, in space that is not free any more. -/
theorem finishAllocation {freeSpace : FreeSpace} {spaces : List Span}
    {bytesReserved : ℕ} (hfreeSpace : freeSpace.WellFormed) (hspaces : spaces.Pairwise Span.Apart)
    (hstop : ∀ space ∈ spaces, space.stop + 2 ^ k ≤ 2 ^ 64)
    (hcover : ∀ a, Tilings.coverage (⟨start, bytes⟩ :: s.handles) a +
      Tilings.coverage freeSpace.spans a = Tilings.coverage spaces a) (hpos : 0 < bytes)
    (hdvd : 2 ^ j ∣ bytes) :
    Invariant j k ⟨{ s.allocator with
        freeSpace := freeSpace
        bytesReserved := bytesReserved }.finishAllocation start bytes,
      ⟨start, bytes⟩ :: s.handles, spaces⟩ := by
  have hlast : (⟨start, bytes⟩ : Span).Contains (start + bytes - 1) := Span.contains_last hpos
  have hend : start + bytes ≤ 2 ^ 64 := by
    have hcovd := hcover (start + bytes - 1)
    rw [coverage_cons, if_pos hlast] at hcovd
    obtain ⟨space, hspace, -, hlt⟩ :=
      coverage_pos_iff.mp (show 0 < Tilings.coverage spaces (start + bytes - 1) by omega)
    have hbound := hstop space hspace
    have hpow := Nat.two_pow_pos k
    omega
  have hocc : (s.allocator.accounts.incrementPageOccupancy s.allocator.pageSize
      s.allocator.logPageSize start bytes).Occupied (2 ^ k)
        (handlesIn (2 ^ k) (⟨start, bytes⟩ :: s.handles)) := by
    rw [h.pageSize, h.logPageSize]
    refine (h.occupied.foldl_incrementPage (PageAccounts.nodup_pages k start bytes)).congr
      fun page => ?_
    have hmem : page ∈ PageAccounts.pages k start bytes ↔ HasByteIn (2 ^ k) page _ :=
      mem_pages_iff_hasByteIn ⟨start, bytes⟩ hend hpos
    rw [handlesIn_cons]
    by_cases hpage : HasByteIn (2 ^ k) page ⟨start, bytes⟩
    · rw [if_pos hpage, if_pos (hmem.mpr hpage)]
    · rw [if_neg hpage, if_neg (mt hmem.mp hpage)]
  exact {
    h with
    freeSpace := hfreeSpace
    spaces_apart := hspaces
    space_stop := hstop
    coverage := hcover
    bytesAllocated := by
      change s.allocator.bytesAllocated + bytes = _
      rw [h.bytesAllocated, map_cons, sum_cons, add_comm]
    occupied := hocc
    handle_dvd := forall_mem_cons.mpr ⟨hdvd, h.handle_dvd⟩ }

theorem roundUp_eq_some (hj : j ≤ 64) (hround : s.allocator.roundUp requested = some bytes) :
    requested ≤ bytes ∧ 2 ^ j ∣ bytes ∧
      (∀ bound, requested ≤ bound → 2 ^ j ∣ bound → bytes ≤ bound) := by
  unfold MetaAllocator.roundUp at hround
  rw [h.granule] at hround
  split_ifs at hround with hcrash
  cases hround
  have hsum : requested + (2 ^ j - 1) < 2 ^ 64 := by
    have := Nat.two_pow_pos j
    omega
  exact ⟨Alignment.le_roundUp hj hsum, Alignment.dvd_roundUp hj,
    fun bound hle hdvd => Alignment.roundUp_le_of_dvd hj hsum hle hdvd⟩

/-- The allocation takes a free node of the least size that fits. -/
theorem allocate_fits (hj : j ≤ 64) (hpos : requested ≠ 0)
    (hround : s.allocator.roundUp requested = some bytes)
    (hfits : ∃ node ∈ s.allocator.freeSpace.spans, bytes ≤ node.size) :
    ∃ t, s.step (.allocate search allocateNewSpace requested) = some t ∧ Invariant j k t ∧
      BestFit s t bytes := by
  obtain ⟨hle, hdvd, -⟩ := h.roundUp_eq_some hj hround
  have hsize : 0 < bytes := lt_of_lt_of_le (Nat.pos_of_ne_zero hpos) hle
  rcases FreeSpace.findAndRemoveFreeSpace_spec search s.allocator.logPageSize h.freeSpace hsize with
    ⟨start, freeSpace, node, hfind, hremoves, hnode, hnsize, hleast⟩ | ⟨-, hnone⟩
  · have hcover (a : ℕ) : Tilings.coverage (⟨start, bytes⟩ :: s.handles) a +
        Tilings.coverage freeSpace.spans a = Tilings.coverage s.spaces a := by
      rw [coverage_cons, ← h.coverage, hremoves.coverage]
      ac_rfl
    refine ⟨⟨{ s.allocator with freeSpace := freeSpace }.finishAllocation start bytes,
      ⟨start, bytes⟩ :: s.handles, s.spaces⟩, ?_,
      h.finishAllocation hremoves.wellFormed h.spaces_apart h.space_stop hcover hsize hdvd,
      fun _ => ?_⟩
    · simp only [step, MetaAllocator.allocate, if_neg hpos, hround, Option.map_some, hfind]
      rfl
    · exact ⟨node, hnode, start, hnsize, hleast, hremoves.inside.1, hremoves.inside.2, rfl, rfl⟩
  · obtain ⟨node, hnode, hnsize⟩ := hfits
    exact absurd hnsize (not_le.mpr (hnone node hnode))

/-- The pages that are requested are enough when their number does not wrap. -/
theorem le_of_requestedNumberOfPages_le {numberOfPages : ℕ} (hwrap : bytes + 2 ^ k - 1 < 2 ^ 64)
    (hle : s.allocator.requestedNumberOfPages bytes ≤ numberOfPages) :
    bytes ≤ numberOfPages * 2 ^ k := by
  have hpow := Nat.two_pow_pos k
  unfold requestedNumberOfPages at hle
  rw [h.pageSize, h.logPageSize, Nat.shiftRight_eq_div_pow, Nat.mod_eq_of_lt hwrap] at hle
  have hceil := (Nat.div_lt_iff_lt_mul hpow).mp (Nat.lt_succ_of_le hle)
  rw [Nat.succ_mul] at hceil
  omega

/-- The part of new space that the allocation does not need is added to the free space. -/
theorem takeNewSpace_freeSpace {numberOfPages : ℕ}
    (hfresh : s.Fresh ⟨start, numberOfPages * 2 ^ k⟩) (hsize : bytes ≤ numberOfPages * 2 ^ k) :
    (s.allocator.takeNewSpace start numberOfPages bytes).freeSpace.WellFormed ∧
      ∀ a, Tilings.coverage (s.allocator.takeNewSpace start numberOfPages bytes).freeSpace.spans a +
        (if (⟨start, bytes⟩ : Span).Contains a then 1 else 0) =
          Tilings.coverage s.allocator.freeSpace.spans a +
            if (⟨start, numberOfPages * 2 ^ k⟩ : Span).Contains a then 1 else 0 := by
  simp only [takeNewSpace, h.logPageSize, Nat.shiftLeft_eq]
  split_ifs with hlt
  · have hadds := FreeSpace.addFreeSpace_spec h.freeSpace (Nat.sub_pos_of_lt hlt)
      (h.apart_of_fresh hfresh ⟨start + bytes, _⟩ fun a hcont => by
        simp only [Span.Contains, stop] at *
        omega)
    refine ⟨hadds.wellFormed, fun a => ?_⟩
    have hcut := contains_cut start bytes (numberOfPages * 2 ^ k - bytes) a
    rw [Nat.add_sub_cancel' hsize] at hcut
    rw [hadds.coverage, hcut]
    ac_rfl
  · rw [le_antisymm hsize (not_lt.mp hlt)]
    exact ⟨h.freeSpace, fun a => rfl⟩

theorem find_eq_none (search : SizeSearch) (hsize : 0 < bytes)
    (hnone : ∀ node ∈ s.allocator.freeSpace.spans, node.size < bytes) :
    s.allocator.freeSpace.findAndRemoveFreeSpace search s.allocator.logPageSize bytes =
      (none, s.allocator.freeSpace) := by
  rcases FreeSpace.findAndRemoveFreeSpace_spec search s.allocator.logPageSize h.freeSpace hsize with
    ⟨start, freeSpace, node, -, -, hnode, hnsize, -⟩ | ⟨hfind, -⟩
  · exact absurd hnsize (not_le.mpr (hnone node hnode))
  · exact hfind

/-- The allocation asks for new space when nothing fits. -/
theorem allocate_newSpace (hj : j ≤ 64) (hk : k ≤ 32) (hpos : requested ≠ 0)
    (hround : s.allocator.roundUp requested = some bytes)
    (hnone : ∀ node ∈ s.allocator.freeSpace.spans, node.size < bytes)
    (hlegal : s.Legal (.allocate search allocateNewSpace requested))
    (hdefect : ¬s.Defect (.allocate search allocateNewSpace requested)) :
    ∃ t, s.step (.allocate search allocateNewSpace requested) = some t ∧ Invariant j k t := by
  obtain ⟨hle, hdvd, -⟩ := h.roundUp_eq_some hj hround
  have hsize : 0 < bytes := lt_of_lt_of_le (Nat.pos_of_ne_zero hpos) hle
  have hfind := h.find_eq_none search hsize hnone
  simp only [step, MetaAllocator.allocate, if_neg hpos, hround, Option.map_some, hfind]
  cases hans : allocateNewSpace (s.allocator.requestedNumberOfPages bytes) with
  | none => exact ⟨s, rfl, h⟩
  | some answer =>
    obtain ⟨start, numberOfPages⟩ := answer
    obtain ⟨hpages, hfresh⟩ := hlegal _ _ _ hans
    rw [h.pageSize] at hfresh
    have hwrap : bytes + 2 ^ k - 1 < 2 ^ 64 := by
      by_contra hwrap
      refine hdefect ⟨hpos, bytes, hround, ?_, hnone, by rw [hans]; exact nofun⟩
      rw [h.pageSize]
      exact not_lt.mp hwrap
    obtain ⟨hwf, hcover⟩ :=
      h.takeNewSpace_freeSpace hfresh (h.le_of_requestedNumberOfPages_le hwrap hpages)
    have hcover' (a : ℕ) : Tilings.coverage (⟨start, bytes⟩ :: s.handles) a +
        Tilings.coverage (s.allocator.takeNewSpace start numberOfPages bytes).freeSpace.spans a =
          Tilings.coverage (⟨start, numberOfPages * 2 ^ k⟩ :: s.spaces) a := by
      have hspace := hcover a
      rw [coverage_cons, coverage_cons, ← h.coverage]
      omega
    refine ⟨⟨(s.allocator.takeNewSpace start numberOfPages bytes).finishAllocation start
      bytes, ⟨start, bytes⟩ :: s.handles,
      ⟨start, numberOfPages <<< s.allocator.logPageSize⟩ :: s.spaces⟩, rfl, ?_⟩
    rw [h.logPageSize, Nat.shiftLeft_eq]
    exact h.finishAllocation hwf (h.spaces_cons hfresh)
      (forall_mem_cons.mpr ⟨h.stop_of_fresh hfresh hk, h.space_stop⟩) hcover' hsize hdvd

/-- Space that a handle gives back becomes free. -/
theorem giveBack {remaining : List MetaAllocatorHandle} {accounts : PageAccounts} (hpos : 0 < freed)
    (hapart : ∀ other ∈ s.allocator.freeSpace.spans, (⟨start, freed⟩ : Span).Apart other)
    (hcover : ∀ a, Tilings.coverage s.handles a =
      Tilings.coverage remaining a + if (⟨start, freed⟩ : Span).Contains a then 1 else 0)
    (hsum : (s.handles.map size).sum = (remaining.map size).sum + freed)
    (hdvd : ∀ handle ∈ remaining, 2 ^ j ∣ handle.size)
    (hocc : accounts.Occupied (2 ^ k) (handlesIn (2 ^ k) remaining)) :
    Invariant j k ⟨{ s.allocator with
        accounts := accounts }.addFreeSpaceFromReleasedHandle start freed, remaining, s.spaces⟩ := by
  have hadds := FreeSpace.addFreeSpace_spec h.freeSpace hpos hapart
  have hcover' (a : ℕ) : Tilings.coverage remaining a +
      Tilings.coverage (s.allocator.freeSpace.addFreeSpace start freed).spans a =
        Tilings.coverage s.spaces a := by
    rw [hadds.coverage, ← h.coverage, hcover, add_assoc]
  exact {
    h with
    freeSpace := hadds.wellFormed
    coverage := hcover'
    bytesAllocated := by
      change s.allocator.bytesAllocated - freed = _
      rw [h.bytesAllocated, hsum, Nat.add_sub_cancel]
    occupied := hocc
    handle_dvd := hdvd }

end

/-- The counts after the pages that a handle leaves have been counted down. -/
theorem foldlM_decrementPage_of_leaves {accounts : PageAccounts} {rest : List MetaAllocatorHandle}
    {pages : List ℕ} (kept : MetaAllocatorHandle)
    (h : accounts.Occupied (2 ^ k) (handlesIn (2 ^ k) (handle :: rest))) (hnodup : pages.Nodup)
    (hpages : ∀ page, page ∈ pages ↔ HasByteIn (2 ^ k) page handle ∧ ¬HasByteIn (2 ^ k) page kept)
    (hkept : ∀ page, HasByteIn (2 ^ k) page kept → HasByteIn (2 ^ k) page handle) :
    ∃ accounts', pages.foldlM (PageAccounts.decrementPage (2 ^ k)) accounts = some accounts' ∧
      accounts'.Occupied (2 ^ k) (handlesIn (2 ^ k) (kept :: rest)) := by
  obtain ⟨accounts', hfold, hocc⟩ := h.foldlM_decrementPage hnodup fun page hpage =>
    handlesIn_pos_iff.mpr ⟨handle, mem_cons_self, ((hpages page).mp hpage).1⟩
  refine ⟨accounts', hfold, hocc.congr fun page => ?_⟩
  rw [handlesIn_cons, handlesIn_cons]
  by_cases hin : HasByteIn (2 ^ k) page kept
  · rw [if_pos hin, if_pos (hkept page hin), if_neg fun hpage => ((hpages page).mp hpage).2 hin]
    rfl
  · by_cases hhandle : HasByteIn (2 ^ k) page handle
    · rw [if_neg hin, if_pos hhandle, if_pos ((hpages page).mpr ⟨hhandle, hin⟩)]
      rfl
    · rw [if_neg hin, if_neg hhandle, if_neg fun hpage => hhandle ((hpages page).mp hpage).1]
      rfl

theorem not_hasByteIn_empty (page start : ℕ) : ¬HasByteIn (2 ^ k) page ⟨start, 0⟩ := by
  rintro ⟨a, hcont, -⟩
  simp only [Span.Contains, stop] at hcont
  omega

theorem handles_perm (hidx : s.handles[index]? = some handle) :
    s.handles.Perm (handle :: s.handles.eraseIdx index) := by
  obtain ⟨hlt, rfl⟩ := List.getElem?_eq_some_iff.mp hidx
  exact (getElem_cons_eraseIdx_perm hlt).symm

theorem occupied_perm (h : Invariant j k s) {handles : List MetaAllocatorHandle}
    (hperm : s.handles.Perm handles) :
    s.allocator.accounts.Occupied (2 ^ k) (handlesIn (2 ^ k) handles) :=
  h.occupied.congr fun page => (handlesIn_perm hperm page).symm

/-- A released handle gives back all of its space. -/
theorem release (h : Invariant j k s) (hidx : index < s.handles.length) :
    ∃ t, s.step (.release index) = some t ∧ Invariant j k t := by
  obtain ⟨handle, hhandle⟩ : ∃ handle, s.handles[index]? = some handle :=
    ⟨_, getElem?_eq_getElem hidx⟩
  have hperm := handles_perm hhandle
  have hmem : handle ∈ s.handles := mem_of_getElem? hhandle
  have hdvd : ∀ other ∈ s.handles.eraseIdx index, 2 ^ j ∣ other.size :=
    fun other hoth => h.handle_dvd other (mem_of_mem_eraseIdx hoth)
  have hempty (page : ℕ) : handlesIn (2 ^ k) (s.handles.eraseIdx index) page =
      handlesIn (2 ^ k) (⟨handle.start, 0⟩ :: s.handles.eraseIdx index) page := by
    rw [handlesIn_cons, if_neg (not_hasByteIn_empty page _), add_zero]
  simp only [step, hhandle, Option.bind_some, MetaAllocator.release]
  split_ifs with hzero
  · obtain ⟨start, size⟩ := handle
    obtain rfl : size = 0 := hzero
    refine ⟨_, rfl, { h with coverage := fun a => ?_, bytesAllocated := ?_, occupied := ?_,
                             handle_dvd := hdvd }⟩
    · have hnot : ¬(⟨start, 0⟩ : Span).Contains a := fun hcont =>
        absurd hcont.2 (not_lt.mpr hcont.1)
      rw [← h.coverage, coverage_perm hperm, coverage_cons, if_neg hnot, zero_add]
    · rw [h.bytesAllocated, (hperm.map size).sum_eq, map_cons, sum_cons, zero_add]
    · exact (h.occupied_perm hperm).congr hempty
  · have hpos := Nat.pos_of_ne_zero hzero
    have hstop := h.stop_le hpos (.inl hmem)
    obtain ⟨accounts, hfold, hocc⟩ := foldlM_decrementPage_of_leaves ⟨handle.start, 0⟩
      (h.occupied_perm hperm)
      (PageAccounts.nodup_pages k handle.start handle.size)
      (fun page => by
        rw [mem_pages_iff_hasByteIn handle (le_of_add_le_left hstop) hpos]
        exact (and_iff_left (not_hasByteIn_empty page _)).symm)
      (fun page hpage => absurd hpage (not_hasByteIn_empty page _))
    have hdecrement : s.allocator.accounts.decrementPageOccupancy s.allocator.pageSize
        s.allocator.logPageSize handle.start handle.size = some accounts := by
      rw [h.pageSize, h.logPageSize]
      exact hfold
    refine ⟨_, by rw [hdecrement]; rfl, h.giveBack hpos
      (h.apart_of_handle hmem ⟨handle.start, handle.size⟩ fun _ hcont => hcont) ?_ ?_ hdvd
      (hocc.congr hempty)⟩
    · intro a
      rw [coverage_perm hperm, coverage_cons, add_comm]
    · rw [(hperm.map size).sum_eq, map_cons, sum_cons, add_comm]

def shrunkPages (k start kept freed : ℕ) : List ℕ :=
  let firstCompletelyFreePage := Alignment.roundUp 64 (2 ^ k) (start + kept)
  if firstCompletelyFreePage < start + kept + freed then
    PageAccounts.pages k firstCompletelyFreePage (freed - (firstCompletelyFreePage - (start + kept)))
  else []

theorem nodup_shrunkPages (k start kept freed : ℕ) : (shrunkPages k start kept freed).Nodup := by
  unfold shrunkPages
  dsimp only
  split_ifs
  · exact PageAccounts.nodup_pages _ _ _
  · exact nodup_nil

variable {kept newSize : ℕ} {event : Event} {t : System}

/-- They are the pages from the first one that starts behind the kept part. -/
theorem mem_shrunkPages {page : ℕ} (hk : k ≤ 64) (hstop : start + kept + freed + 2 ^ k ≤ 2 ^ 64)
    (hfreed : 0 < freed) :
    page ∈ shrunkPages k start kept freed ↔ (start + kept + (2 ^ k - 1)) / 2 ^ k ≤ page ∧
        page ≤ (start + kept + freed - 1) / 2 ^ k := by
  have hpow := Nat.two_pow_pos k
  have hsum : start + kept + (2 ^ k - 1) < 2 ^ 64 := by omega
  have hle := Alignment.le_roundUp hk hsum
  have hround := Alignment.roundUp_eq hk hsum
  simp only [shrunkPages]
  set firstPage := (start + kept + (2 ^ k - 1)) / 2 ^ k
  split_ifs with hlt
  · have hend : Alignment.roundUp 64 (2 ^ k) (start + kept) +
        (freed - (Alignment.roundUp 64 (2 ^ k) (start + kept) - (start + kept))) =
          start + kept + freed := by omega
    rw [PageAccounts.mem_pages (by omega), hend, hround, Nat.mul_div_cancel _ hpow]
  · rw [hround, not_lt] at hlt
    have hnone : (start + kept + freed - 1) / 2 ^ k < firstPage :=
      (Nat.div_lt_iff_lt_mul hpow).mpr (by omega)
    refine iff_of_false not_mem_nil ?_
    omega

/-- A handle that keeps a byte, or that starts at a page, leaves exactly these pages. -/
theorem mem_shrunkPages_iff_leaves (page : ℕ) (hk : k ≤ 64)
    (hstop : start + kept + freed + 2 ^ k ≤ 2 ^ 64) (hfreed : 0 < freed)
    (hguard : 0 < kept ∨ 2 ^ k ∣ start) :
    page ∈ shrunkPages k start kept freed ↔
      HasByteIn (2 ^ k) page ⟨start, kept + freed⟩ ∧ ¬HasByteIn (2 ^ k) page ⟨start, kept⟩ := by
  have hpow := Nat.two_pow_pos k
  rw [mem_shrunkPages hk hstop hfreed, hasByteIn_iff hpow, hasByteIn_iff hpow]
  simp only [stop, ← add_assoc]
  rcases Nat.eq_zero_or_pos kept with hzero | hkept
  · subst hzero
    have hfst : (start + 0 + (2 ^ k - 1)) / 2 ^ k = start / 2 ^ k := by
      obtain ⟨m, rfl⟩ := hguard.resolve_left (lt_irrefl 0)
      rw [add_zero, Nat.mul_add_div hpow, Nat.mul_div_cancel_left _ hpow,
        Nat.div_eq_of_lt (by omega), add_zero]
    rw [hfst]
    omega
  · have hfst : (start + kept + (2 ^ k - 1)) / 2 ^ k = (start + kept - 1) / 2 ^ k + 1 := by
      rw [← Nat.add_div_right _ hpow]
      congr 1
      omega
    have hlow : start / 2 ^ k ≤ (start + kept - 1) / 2 ^ k := Nat.div_le_div_right (by omega)
    rw [hfst]
    omega

theorem step_shrink_of_eq (hidx : s.handles[index]? = some handle)
    (hround : s.allocator.roundUp newSize = some handle.size) :
    s.step (.shrink index newSize) = some s := by
  have hset : s.handles.set index handle = s.handles := by
    obtain ⟨hlt, rfl⟩ := List.getElem?_eq_some_iff.mp hidx
    exact set_getElem_self hlt
  simp only [step, hidx, Option.bind_some, MetaAllocator.shrink, hround, if_true, Option.map_some,
    hset]

theorem step_shrink_of_lt (h : Invariant j k s) (hidx : s.handles[index]? = some handle)
    (hround : s.allocator.roundUp newSize = some kept) (hlt : kept < handle.size) :
    s.step (.shrink index newSize) = ((shrunkPages k handle.start kept (handle.size - kept)).foldlM
        (PageAccounts.decrementPage (2 ^ k)) s.allocator.accounts).map fun accounts =>
          ⟨{ s.allocator with accounts := accounts }.addFreeSpaceFromReleasedHandle
            (handle.start + kept) (handle.size - kept), s.handles.set index ⟨handle.start, kept⟩,
            s.spaces⟩ := by
  simp only [step, hidx, Option.bind_some, MetaAllocator.shrink, hround, if_neg hlt.ne, shrunkPages,
    h.pageSize, h.logPageSize, Option.map_map]
  split_ifs <;> rfl

/-- The handle that is shrunk, with the others. -/
theorem set_perm (hidx : s.handles[index]? = some handle) (shrunk : MetaAllocatorHandle) :
    (s.handles.set index shrunk).Perm (shrunk :: s.handles.eraseIdx index) :=
  set_perm_cons_eraseIdx (List.getElem?_eq_some_iff.mp hidx).1 shrunk

section

variable (h : Invariant j k s)

include h

/-- A handle is shrunk, to something or at the start of a page. -/
theorem shrink (hj : j ≤ 64) (hk : k ≤ 32)
    (hidx : s.handles[index]? = some handle) (hle : newSize ≤ handle.size)
    (hround : s.allocator.roundUp newSize = some kept)
    (hdefect : ¬s.Defect (.shrink index newSize)) :
    ∃ t, s.step (.shrink index newSize) = some t ∧ Invariant j k t := by
  have hmem : handle ∈ s.handles := mem_of_getElem? hidx
  obtain ⟨hlow, hdvd, hleast⟩ := h.roundUp_eq_some hj hround
  rcases (hleast _ hle (h.handle_dvd handle hmem)).eq_or_lt with rfl | hlt
  · exact ⟨s, step_shrink_of_eq hidx hround, h⟩
  have hfreed := Nat.sub_pos_of_lt hlt
  have hsize := Nat.add_sub_cancel' hlt.le
  have hstop : handle.start + kept + (handle.size - kept) + 2 ^ k ≤ 2 ^ 64 := by
    rw [add_assoc handle.start, hsize]
    exact h.stop_le (Nat.zero_lt_of_lt hlt) (.inl hmem)
  have hguard : 0 < kept ∨ 2 ^ k ∣ handle.start := by
    by_contra hnone
    rw [not_or, not_lt, nonpos_iff_eq_zero] at hnone
    refine hdefect ⟨by omega, handle, hidx, by omega, ?_⟩
    rw [h.pageSize]
    exact hnone.2
  obtain ⟨accounts, hfold, hocc⟩ := foldlM_decrementPage_of_leaves ⟨handle.start, kept⟩
    (h.occupied_perm (handles_perm hidx))
    (nodup_shrunkPages k handle.start kept (handle.size - kept))
    (fun page => by
      have hleaves := mem_shrunkPages_iff_leaves page (by omega) hstop hfreed hguard
      rwa [hsize] at hleaves)
    (fun page ⟨a, hcont, hpage⟩ => ⟨a, by
      simp only [Span.Contains, stop] at *
      omega, hpage⟩)
  have hperm := set_perm hidx ⟨handle.start, kept⟩
  refine ⟨_, by rw [h.step_shrink_of_lt hidx hround hlt, hfold]; rfl, h.giveBack hfreed
    (h.apart_of_handle hmem ⟨handle.start + kept, handle.size - kept⟩ fun a hcont => by
      simp only [Span.Contains, stop] at *
      omega) (fun a => ?_) ?_ ?_ (hocc.congr (handlesIn_perm hperm))⟩
  · have hcut := contains_cut handle.start kept (handle.size - kept) a
    rw [hsize] at hcut
    rw [coverage_perm hperm, coverage_perm (handles_perm hidx), coverage_cons, coverage_cons]
    rw [add_right_comm, ← hcut]
  · rw [(hperm.map size).sum_eq, ((handles_perm hidx).map size).sum_eq, map_cons,
      map_cons, sum_cons, sum_cons]
    change handle.size + _ = kept + _ + _
    omega
  · intro other hoth
    rcases mem_cons.mp (hperm.mem_iff.mp hoth) with rfl | hoth
    · exact hdvd
    · exact h.handle_dvd other (mem_of_mem_eraseIdx hoth)

/-- Every call without a defect has a sound result that keeps the invariant, unless it crashes. -/
theorem step_of_not_defect (hj : j ≤ 64) (hk : k ≤ 32)
    (hlegal : s.Legal event) (hdefect : ¬s.Defect event) :
    s.StepSound event ∧ ∀ t, s.step event = some t → Invariant j k t := by
  suffices hstep : s.Crashes event ∧ s.step event = none ∨ ∃ t, s.step event = some t ∧
      Invariant j k t ∧ ∀ search allocateNewSpace requested bytes,
        event = .allocate search allocateNewSpace requested → requested ≠ 0 →
          s.allocator.roundUp requested = some bytes → BestFit s t bytes by
    rcases hstep with ⟨hcrash, hnone⟩ | ⟨t, hsome, hinv, hfit⟩
    · refine ⟨.inl hcrash, fun t hsome => ?_⟩
      rw [hnone] at hsome
      exact absurd hsome nofun
    · refine ⟨.inr ⟨t, hsome, hfit⟩, fun t' hsome' => ?_⟩
      rwa [← Option.some.inj (hsome.symm.trans hsome')]
  cases event with
  | addFreshFreeSpace start bytes =>
    exact .inr ⟨_, rfl, h.addFreshFreeSpace hk hlegal.1 hlegal.2, nofun⟩
  | allocate search allocateNewSpace requested =>
    by_cases hzero : requested = 0
    · refine .inr ⟨s, ?_, h, ?_⟩
      · simp only [step, MetaAllocator.allocate, if_pos hzero]
        rfl
      · rintro _ _ _ _ ⟨⟩ hne
        exact absurd hzero hne
    cases hround : s.allocator.roundUp requested with
    | none =>
      refine .inl ⟨⟨hzero, hround⟩, ?_⟩
      simp only [step, MetaAllocator.allocate, if_neg hzero, hround]
      rfl
    | some bytes =>
      have hstep : ∃ t, s.step (.allocate search allocateNewSpace requested) = some t ∧
          Invariant j k t ∧ BestFit s t bytes := by
        by_cases hfits : ∃ node ∈ s.allocator.freeSpace.spans, bytes ≤ node.size
        · exact h.allocate_fits hj hzero hround hfits
        · have hnone : ∀ node ∈ s.allocator.freeSpace.spans, node.size < bytes :=
            fun node hnode => not_le.mp fun hle => hfits ⟨node, hnode, hle⟩
          obtain ⟨t, hstep, hinv⟩ :=
            h.allocate_newSpace hj hk hzero hround hnone hlegal hdefect
          exact ⟨t, hstep, hinv, fun hfits' => absurd hfits' hfits⟩
      obtain ⟨t, hstep, hinv, hfit⟩ := hstep
      refine .inr ⟨t, hstep, hinv, ?_⟩
      rintro _ _ _ size ⟨⟩ - hsize
      cases hround.symm.trans hsize
      exact hfit
  | shrink index newSize =>
    obtain ⟨handle, hidx, hle⟩ := hlegal
    cases hround : s.allocator.roundUp newSize with
    | none =>
      refine .inl ⟨hround, ?_⟩
      simp only [step, hidx, MetaAllocator.shrink, hround]
      rfl
    | some kept =>
      obtain ⟨t, hstep, hinv⟩ := h.shrink hj hk hidx hle hround hdefect
      exact .inr ⟨t, hstep, hinv, nofun⟩
  | release index =>
    obtain ⟨t, hstep, hinv⟩ := h.release hlegal
    exact .inr ⟨t, hstep, hinv, nofun⟩

theorem roundUp_zero (hj : j ≤ 32) : s.allocator.roundUp 0 = some 0 := by
  have hgranule : 2 ^ j ≤ 2 ^ 32 := Nat.pow_le_pow_right Nat.two_pos hj
  have hsome : s.allocator.roundUp 0 = some (Alignment.roundUp 64 s.allocator.allocationGranule 0) := by
    rw [MetaAllocator.roundUp, h.granule, if_neg (by omega)]
  obtain ⟨-, -, hleast⟩ := h.roundUp_eq_some (by omega) hsome
  rw [hsome, Nat.le_zero.mp (hleast 0 le_rfl (Nat.dvd_zero _))]

/-- A handle that does not start at a page keeps its first page occupied when it is shrunk to
nothing. -/
theorem not_sound_of_shrink (hj : j ≤ 32) (hk : k ≤ 32)
    (hidx : s.handles[index]? = some handle) (hpos : 0 < handle.size)
    (hstart : ¬2 ^ k ∣ handle.start) (hstep : s.step (.shrink index 0) = some t) : ¬t.Sound := by
  have hpow := Nat.two_pow_pos k
  have hstop := h.stop_le hpos (.inl (mem_of_getElem? hidx))
  have hmem (page : ℕ) : page ∈ shrunkPages k handle.start 0 (handle.size - 0) ↔
      (handle.start + 0 + (2 ^ k - 1)) / 2 ^ k ≤ page ∧ page ≤ (handle.stop - 1) / 2 ^ k :=
    mem_shrunkPages (by omega) hstop hpos
  have hfst : handle.start / 2 ^ k < (handle.start + 0 + (2 ^ k - 1)) / 2 ^ k := by
    rw [Nat.lt_div_iff_mul_lt hpow]
    have hmod := Nat.div_add_mod handle.start (2 ^ k)
    rw [mul_comm] at hmod
    omega
  obtain ⟨accounts, hfold, hocc⟩ := (h.occupied_perm (handles_perm hidx)).foldlM_decrementPage
    (nodup_shrunkPages k handle.start 0 (handle.size - 0)) fun page hpage => by
      rw [hmem] at hpage
      refine handlesIn_pos_iff.mpr ⟨handle, mem_cons_self, (hasByteIn_iff hpow).mpr ?_⟩
      omega
  rw [h.step_shrink_of_lt hidx (h.roundUp_zero hj) hpos, hfold] at hstep
  cases hstep
  intro hsound
  have hoccupancy := hsound.occupancy (handle.start / 2 ^ k)
  change (accounts.pageOccupancyMap.lookup _).getD 0 =
    handlesIn s.allocator.pageSize (s.handles.set index ⟨handle.start, 0⟩) _ at hoccupancy
  have hnot : handle.start / 2 ^ k ∉ shrunkPages k handle.start 0 (handle.size - 0) := by
    rw [hmem]
    omega
  have hin : HasByteIn (2 ^ k) (handle.start / 2 ^ k) handle :=
    ⟨handle.start, Span.contains_start hpos, rfl⟩
  rw [h.pageSize, handlesIn_perm (set_perm hidx _), handlesIn_cons,
    if_neg (not_hasByteIn_empty _ _), hocc.lookup, if_neg hnot, handlesIn_cons, if_pos hin,
    Nat.sub_zero, if_neg (Nat.succ_ne_zero _), Option.getD_some] at hoccupancy
  omega

/-- A handle for which a wrapped number of pages was reserved reaches behind its space. -/
theorem not_sound_of_wrapped (hj : j ≤ 64) (hk : k ≤ 32)
    (hlegal : s.Legal (.allocate search allocateNewSpace requested))
    (hdefect : s.Defect (.allocate search allocateNewSpace requested))
    (hstep : s.step (.allocate search allocateNewSpace requested) = some t) : ¬t.Sound := by
  obtain ⟨hpos, bytes, hround, hwrap, hnone, hans⟩ := hdefect
  obtain ⟨hle, -, -⟩ := h.roundUp_eq_some hj hround
  have hsize : 0 < bytes := lt_of_lt_of_le (Nat.pos_of_ne_zero hpos) hle
  obtain ⟨⟨start, numberOfPages⟩, hans⟩ := Option.ne_none_iff_exists'.mp hans
  obtain ⟨-, hfresh⟩ := hlegal _ _ _ hans
  have hfind := h.find_eq_none search hsize hnone
  simp only [step, MetaAllocator.allocate, if_neg hpos, hround, Option.map_some, hfind, hans,
    Option.some.injEq] at hstep
  subst hstep
  intro hsound
  obtain ⟨space, hspace, -, hlt⟩ := (hsound.tiles.2 (start + bytes - 1)).mp
    ⟨⟨start, bytes⟩, mem_append_left _ mem_cons_self, Span.contains_last hsize⟩
  have hstart : s.allocator.pageSize ≤ start := Nat.le_of_dvd hfresh.start_pos hfresh.start_dvd
  have hstop : space.stop + 2 ^ k ≤ 2 ^ 64 := by
    rw [h.pageSize] at hfresh
    rcases mem_cons.mp hspace with rfl | hspace
    · rw [h.logPageSize, Nat.shiftLeft_eq]
      exact h.stop_of_fresh hfresh hk
    · exact h.space_stop space hspace
  have hpow := Nat.two_pow_pos k
  omega

theorem not_sound_of_defect (hj : j ≤ 32) (hk : k ≤ 32)
    (hlegal : s.Legal event) (hdefect : s.Defect event) (hstep : s.step event = some t) :
    ¬t.Sound := by
  cases event with
  | addFreshFreeSpace start bytes => exact absurd hdefect id
  | allocate search allocateNewSpace requested =>
    exact h.not_sound_of_wrapped (by omega) hk hlegal hdefect hstep
  | shrink index newSize =>
    obtain ⟨rfl, handle, hidx, hpos, hstart⟩ := hdefect
    rw [h.pageSize] at hstart
    exact h.not_sound_of_shrink hj hk hidx hpos hstart hstep
  | release index => exact absurd hdefect id

theorem not_crashes_of_defect (hj : j ≤ 32) (hdefect : s.Defect event) : ¬s.Crashes event := by
  cases event with
  | addFreshFreeSpace start bytes => exact absurd hdefect id
  | allocate search allocateNewSpace requested =>
    obtain ⟨-, bytes, hround, -⟩ := hdefect
    rintro ⟨-, hnone⟩
    rw [hround] at hnone
    exact absurd hnone nofun
  | shrink index newSize =>
    obtain ⟨rfl, -⟩ := hdefect
    exact fun hnone => absurd ((h.roundUp_zero hj).symm.trans hnone) nofun
  | release index => exact absurd hdefect id

end

end Invariant

def RunSound (events : List Event) : Prop := Always step Sound StepSound s events

theorem runSound_iff_of_invariant {j k : ℕ} (hj : j ≤ 32) (hk : k ≤ 32) {s : System}
    {events : List Event} (h : Invariant j k s) (hlegal : Guarded step Legal s events) :
    s.RunSound events ↔ Guarded step (fun t event => ¬t.Defect event) s events := by
  induction events generalizing s with
  | nil => exact iff_of_true ((always_nil step).mpr h.sound) (guarded_nil step _ s)
  | cons event events ih =>
    have hfst : s.Legal event := hlegal [] event events s rfl rfl
    rw [RunSound, always_cons]
    constructor
    · rintro ⟨-, hstepSound, hrest⟩
      have hdefect : ¬s.Defect event := by
        intro hdefect
        obtain ⟨t, hstep, -⟩ := hstepSound.resolve_left (h.not_crashes_of_defect hj hdefect)
        exact h.not_sound_of_defect hj hk hfst hdefect hstep (hrest t hstep [] events t rfl rfl).1
      refine Guarded.cons step hdefect fun t hstep => ?_
      exact (ih ((h.step_of_not_defect (by omega) hk hfst hdefect).2 t hstep)
        (guarded_cons step hlegal hstep).2).mp (hrest t hstep)
    · intro hguard
      have hdefect : ¬s.Defect event := hguard [] event events s rfl rfl
      obtain ⟨hstepSound, hpres⟩ := h.step_of_not_defect (by omega) hk hfst hdefect
      refine ⟨h.sound, hstepSound, fun t hstep => ?_⟩
      exact (ih (hpres t hstep) (guarded_cons step hlegal hstep).2).mpr
        (guarded_cons step hguard hstep).2

/-- For granules and pages of a power of two bytes, a run of legal calls is sound throughout exactly
when none of its calls is one of the defects. -/
theorem runSound_iff {j k : ℕ} (hjk : j ≤ k) (hk : k ≤ 32) {events : List Event}
    (hlegal : Guarded step Legal (make (2 ^ j) (2 ^ k)) events) :
    (make (2 ^ j) (2 ^ k)).RunSound events ↔
      Guarded step (fun t event => ¬t.Defect event) (make (2 ^ j) (2 ^ k)) events :=
  runSound_iff_of_invariant (hjk.trans hk) hk (Invariant.make hk) hlegal

def shrunkToNothing : List Event :=
  [.addFreshFreeSpace 4096 4096, .allocate .first (fun _ => none) 32,
    .allocate .first (fun _ => none) 32, .shrink 0 0]

theorem fresh_page : (make (2 ^ 5) (2 ^ 12)).Fresh ⟨4096, 4096⟩ :=
  ⟨by decide, by decide, by decide, by decide, nofun⟩

theorem guarded_shrunkToNothing : Guarded step Legal (make (2 ^ 5) (2 ^ 12)) shrunkToNothing := by
  refine Guarded.cons step ⟨by decide, fresh_page⟩ fun s hs => ?_
  cases hs
  refine Guarded.cons step nofun fun s hs => ?_
  cases hs
  refine Guarded.cons step nofun fun s hs => ?_
  cases hs
  refine Guarded.cons step ⟨_, rfl, Nat.zero_le _⟩ fun s _ => ?_
  exact guarded_nil step _ s

/-- The first page stays occupied without a live byte in it. -/
theorem not_runSound_shrunkToNothing : Guarded step Legal (make (2 ^ 5) (2 ^ 12)) shrunkToNothing ∧
      ¬(make (2 ^ 5) (2 ^ 12)).RunSound shrunkToNothing := by
  refine ⟨guarded_shrunkToNothing, fun hsound => ?_⟩
  have hguard := (runSound_iff_of_invariant (by decide) (by decide) (Invariant.make (by decide))
    guarded_shrunkToNothing).mp hsound
  exact hguard [_, _, _] (.shrink 0 0) [] _ rfl rfl ⟨rfl, _, rfl, by decide, by decide⟩

def shrunkAndReleased : List Event :=
  [.addFreshFreeSpace 4096 4096, .allocate .first (fun _ => none) 100, .shrink 0 40, .release 0]

theorem runSound_iff_shrunkAndReleased : (make (2 ^ 5) (2 ^ 12)).RunSound shrunkAndReleased := by
  refine (runSound_iff (by decide) (by decide) ?_).mpr ?_
  · refine Guarded.cons step ⟨by decide, fresh_page⟩ fun s hs => ?_
    cases hs
    refine Guarded.cons step nofun fun s hs => ?_
    cases hs
    refine Guarded.cons step ⟨_, rfl, by decide⟩ fun s hs => ?_
    cases hs
    refine Guarded.cons step (by decide : 0 < length _) fun s _ => ?_
    exact guarded_nil step _ s
  · refine Guarded.cons step (fun h => h) fun s hs => ?_
    refine Guarded.cons step (fun ⟨_, _, _, _, _, hans⟩ => hans rfl) fun s hs => ?_
    refine Guarded.cons step (fun ⟨hzero, _⟩ => absurd hzero (by decide)) fun s _ => ?_
    refine Guarded.cons step (fun h => h) fun s _ => ?_
    exact guarded_nil step _ s

end System

end MetaAllocator

end WebKit
