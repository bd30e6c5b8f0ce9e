import WebKit.WTF.MetaAllocator.FreeSpace

/-!
The counts of the pages. Every page counts the live handles with a byte in it, and a page is
committed while its count is not zero.
-/

namespace WebKit

open List HashMaps Tilings

structure PageAccounts where
  pageOccupancyMap : HashMap ℕ ℕ
  bytesCommitted : ℕ

namespace PageAccounts

def pages (logPageSize address sizeInBytes : ℕ) : List ℕ :=
  let firstPage := address >>> logPageSize
  let lastPage := ((address + sizeInBytes - 1) % 2 ^ 64) >>> logPageSize
  List.range' firstPage (lastPage + 1 - firstPage)

def incrementPage (pageSize : ℕ) (s : PageAccounts) (page : ℕ) : PageAccounts :=
  match s.pageOccupancyMap.lookup page with
  | none => ⟨add s.pageOccupancyMap page 1, s.bytesCommitted + pageSize⟩
  | some count => { s with pageOccupancyMap := s.pageOccupancyMap.insert page (count + 1) }

/-- A page that is not in the map would be a use of the end iterator: there is no result. -/
def decrementPage (pageSize : ℕ) (s : PageAccounts) (page : ℕ) : Option PageAccounts :=
  match s.pageOccupancyMap.lookup page with
  | none => none
  | some count =>
    if count - 1 = 0 then
      some ⟨s.pageOccupancyMap.erase page, s.bytesCommitted - pageSize⟩
    else some { s with pageOccupancyMap := s.pageOccupancyMap.insert page (count - 1) }

def incrementPageOccupancy (pageSize logPageSize : ℕ) (s : PageAccounts) (address sizeInBytes : ℕ) :
    PageAccounts :=
  (pages logPageSize address sizeInBytes).foldl (incrementPage pageSize) s

def decrementPageOccupancy (pageSize logPageSize : ℕ) (s : PageAccounts) (address sizeInBytes : ℕ) :
    Option PageAccounts :=
  (pages logPageSize address sizeInBytes).foldlM (decrementPage pageSize) s

end PageAccounts

def HasByteIn (pageSize page : ℕ) (span : Span) : Prop := ∃ a, span.Contains a ∧ a / pageSize = page

variable {pageSize : ℕ}

theorem hasByteIn_iff {page : ℕ} {span : Span} (hpos : 0 < pageSize) :
    HasByteIn pageSize page span ↔
      0 < span.size ∧ span.start / pageSize ≤ page ∧ page ≤ (span.stop - 1) / pageSize := by
  constructor
  · rintro ⟨a, ⟨hstart, hstop⟩, rfl⟩
    refine ⟨?_, Nat.div_le_div_right hstart, Nat.div_le_div_right (Nat.le_pred_of_lt hstop)⟩
    simp only [Span.stop] at hstop
    omega
  · rintro ⟨hsize, hfst, hlast⟩
    have hlow : page * pageSize ≤ span.stop - 1 := (Nat.le_div_iff_mul_le hpos).mp hlast
    have hhigh : span.start < (page + 1) * pageSize :=
      (Nat.div_lt_iff_lt_mul hpos).mp (Nat.lt_succ_of_le hfst)
    have hstep : (page + 1) * pageSize = page * pageSize + pageSize := Nat.succ_mul _ _
    refine ⟨max span.start (page * pageSize), ⟨le_max_left _ _, ?_⟩, ?_⟩
    · simp only [Span.stop] at *
      omega
    · refine Nat.div_eq_of_lt_le (le_max_right _ _) ?_
      rw [max_lt_iff, Nat.succ_mul]
      omega

open Classical in
noncomputable def handlesIn (pageSize : ℕ) (handles : List MetaAllocatorHandle) (page : ℕ) : ℕ :=
  handles.countP fun handle => HasByteIn pageSize page handle

open Classical in
theorem handlesIn_cons (pageSize : ℕ) (handle : MetaAllocatorHandle) (handles : List MetaAllocatorHandle)
    (page : ℕ) : handlesIn pageSize (handle :: handles) page =
      handlesIn pageSize handles page + if HasByteIn pageSize page handle then 1 else 0 := by
  simp only [handlesIn, countP_cons, decide_eq_true_eq]

theorem handlesIn_perm {handles handles' : List MetaAllocatorHandle} (h : handles.Perm handles')
    (page : ℕ) : handlesIn pageSize handles page = handlesIn pageSize handles' page :=
  h.countP_eq _

theorem handlesIn_pos_iff {handles : List MetaAllocatorHandle} {page : ℕ} :
    0 < handlesIn pageSize handles page ↔ ∃ handle ∈ handles, HasByteIn pageSize page handle := by
  simp only [handlesIn, countP_pos_iff, decide_eq_true_eq]

namespace PageAccounts

variable {s : PageAccounts} {pageSize logPageSize page : ℕ} {count : ℕ → ℕ}

structure Occupied (s : PageAccounts) (pageSize : ℕ) (count : ℕ → ℕ) : Prop where
  lookup : ∀ page, s.pageOccupancyMap.lookup page = if count page = 0 then none else some (count page)
  committed : s.bytesCommitted = pageSize * s.pageOccupancyMap.keys.length

variable {map : HashMap ℕ ℕ} {key value : ℕ}

theorem length_keys_add (h : map.lookup key = none) :
    (add map key value).keys.length = map.keys.length + 1 := by
  have hnot : key ∉ map.keys := fun hmem => AList.lookup_eq_none.mp h (AList.mem_keys.mpr hmem)
  rw [add, if_neg (AList.lookup_eq_none.mp h), AList.keys_insert, length_cons,
    erase_of_not_mem hnot]

theorem length_keys_insert {value' : ℕ} (h : map.lookup key = some value') :
    (map.insert key value).keys.length = map.keys.length := by
  have hmem : key ∈ map.keys := mem_keys_iff.mpr ⟨value', h⟩
  rw [AList.keys_insert, length_cons, length_erase_of_mem hmem,
    Nat.sub_add_cancel (length_pos_of_mem hmem)]

theorem length_keys_erase (h : map.lookup key = some value) :
    (map.erase key).keys.length + 1 = map.keys.length := by
  have hmem : key ∈ map.keys := mem_keys_iff.mpr ⟨value, h⟩
  rw [AList.keys_erase, length_erase_of_mem hmem, Nat.sub_add_cancel (length_pos_of_mem hmem)]

section

variable (h : s.Occupied pageSize count)

include h

theorem Occupied.incrementPage (page : ℕ) : (incrementPage pageSize s page).Occupied pageSize
      (Function.update count page (count page + 1)) := by
  have hget := h.lookup page
  unfold PageAccounts.incrementPage
  split_ifs at hget with hzero
  · rw [hget]
    refine ⟨fun other => ?_, ?_⟩
    · rw [lookup_add_eq hget]
      by_cases hoth : other = page
      · simp [hoth, hzero]
      · simp [hoth, h.lookup]
    · rw [length_keys_add hget, Nat.mul_succ, ← h.committed]
  · rw [hget]
    refine ⟨fun other => ?_, ?_⟩
    · rw [lookup_insert_eq]
      by_cases hoth : other = page
      · simp [hoth]
      · simp [hoth, h.lookup]
    · rw [length_keys_insert hget]
      exact h.committed

theorem Occupied.decrementPage (hpos : 0 < count page) :
    ∃ s', decrementPage pageSize s page = some s' ∧
      s'.Occupied pageSize (Function.update count page (count page - 1)) := by
  have hget := h.lookup page
  rw [if_neg hpos.ne'] at hget
  unfold PageAccounts.decrementPage
  rw [hget]
  dsimp only
  split_ifs with hlast
  · refine ⟨_, rfl, fun other => ?_, ?_⟩
    · rw [lookup_erase_eq]
      by_cases hoth : other = page
      · simp [hoth, hlast]
      · simp [hoth, h.lookup]
    · have hlen := length_keys_erase hget
      rw [h.committed, ← hlen, Nat.mul_succ, Nat.add_sub_cancel]
  · refine ⟨_, rfl, fun other => ?_, ?_⟩
    · rw [lookup_insert_eq]
      by_cases hoth : other = page
      · simp [hoth, hlast]
      · simp [hoth, h.lookup]
    · rw [length_keys_insert hget]
      exact h.committed

theorem Occupied.congr {count' : ℕ → ℕ}
    (heq : ∀ page, count' page = count page) : s.Occupied pageSize count' := by
  rwa [show count' = count from funext heq]

/-- The loop over different pages adds one to each of their counts. -/
theorem Occupied.foldl_incrementPage {pages : List ℕ} (hnodup : pages.Nodup) :
    (pages.foldl (PageAccounts.incrementPage pageSize) s).Occupied pageSize
      fun page => count page + if page ∈ pages then 1 else 0 := by
  induction pages generalizing s count with
  | nil => exact h.congr fun page => by simp
  | cons first rest ih =>
    obtain ⟨hfst, hrest⟩ := nodup_cons.mp hnodup
    refine (ih (h.incrementPage first) hrest).congr fun page => ?_
    by_cases hpage : page = first
    · simp [hpage, hfst]
    · simp [hpage]

/-- The loop over different pages that are all occupied takes one from each of their counts. -/
theorem Occupied.foldlM_decrementPage {pages : List ℕ}
    (hnodup : pages.Nodup) (hpos : ∀ page ∈ pages, 0 < count page) :
    ∃ s', pages.foldlM (PageAccounts.decrementPage pageSize) s = some s' ∧
      s'.Occupied pageSize fun page => count page - if page ∈ pages then 1 else 0 := by
  induction pages generalizing s count with
  | nil => exact ⟨s, rfl, h.congr fun page => by simp⟩
  | cons first rest ih =>
    obtain ⟨hfst, hrest⟩ := nodup_cons.mp hnodup
    obtain ⟨s₁, hstep, hs₁⟩ := h.decrementPage (hpos first mem_cons_self)
    obtain ⟨s', hfold, hs'⟩ := ih hs₁ hrest fun page hpage => by
      rw [Function.update_of_ne (ne_of_mem_of_not_mem hpage hfst)]
      exact hpos page (mem_cons_of_mem _ hpage)
    refine ⟨s', ?_, hs'.congr fun page => ?_⟩
    · rw [foldlM_cons, hstep]
      exact hfold
    · by_cases hpage : page = first
      · simp [hpage, hfst]
      · simp [hpage]

end

theorem nodup_pages (logPageSize address size : ℕ) : (pages logPageSize address size).Nodup :=
  nodup_range'

theorem mem_pages {address size : ℕ} (hstop : address + size ≤ 2 ^ 64) :
    page ∈ pages logPageSize address size ↔
      address / 2 ^ logPageSize ≤ page ∧ page ≤ (address + size - 1) / 2 ^ logPageSize := by
  simp only [pages, mem_range'_1, Nat.shiftRight_eq_div_pow]
  rw [Nat.mod_eq_of_lt (by omega)]
  omega

end PageAccounts

end WebKit
