import Mathlib

/-!
Placing the entries of a list into buckets that lie one behind the other. An entry comes into the bucket
of its key, behind the earlier entries with the same key, so the buckets are filled up exactly.
-/

namespace WebKit.BucketPlacement

open List

def offset (keys : List ℕ) (bucket : ℕ) : ℕ := keys.countP (· < bucket)

def place (keys : List ℕ) (k : ℕ) : ℕ :=
  offset keys (keys.getD k 0) + (keys.take k).count (keys.getD k 0)

variable {keys : List ℕ} {bucket k i : ℕ}

theorem offset_succ (keys : List ℕ) (bucket : ℕ) :
    offset keys (bucket + 1) = offset keys bucket + keys.count bucket := by
  induction keys with
  | nil => rfl
  | cons key keys ih =>
    unfold offset at ih ⊢
    rw [countP_cons, countP_cons, count_cons, ih]
    by_cases hlt : key < bucket
    · have hne : ¬ key = bucket := by omega
      have hlt' : key < bucket + 1 := by omega
      simp [hlt, hne, hlt']
      omega
    · by_cases heq : key = bucket
      · simp [heq]
        omega
      · have hlt' : ¬ key < bucket + 1 := by omega
        simp [hlt, heq, hlt']

theorem offset_mono {bucket bucket' : ℕ} (h : bucket ≤ bucket') :
    offset keys bucket ≤ offset keys bucket' := by
  apply countP_mono_left
  intro key _ hkey
  have hlt : key < bucket := by simpa using hkey
  simpa using hlt.trans_le h

theorem offset_le_length : offset keys bucket ≤ keys.length := countP_le_length

/-- An entry is counted among the earlier entries of each later one with the same key. -/
theorem count_take_lt {j : ℕ} (hjk : j < k) (hk : k ≤ keys.length) :
    (keys.take j).count (keys.getD j 0) < (keys.take k).count (keys.getD j 0) := by
  have hj : j < keys.length := by omega
  have hsucc : (keys.take (j + 1)).count (keys.getD j 0) = (keys.take j).count (keys.getD j 0) + 1 := by
    rw [take_add_one, List.getElem?_eq_getElem hj, count_append, getD_eq_getElem _ 0 hj]
    simp
  have hprefix : (keys.take (j + 1)).Sublist (keys.take k) :=
    take_sublist_take_left (by omega)
  have hle := hprefix.count_le (keys.getD j 0)
  omega

theorem place_mem_bucket (hk : k < keys.length) : offset keys (keys.getD k 0) ≤ place keys k ∧
    place keys k < offset keys (keys.getD k 0 + 1) := by
  refine ⟨Nat.le_add_right _ _, ?_⟩
  rw [offset_succ]
  have hlt := count_take_lt (j := k) hk (Nat.le_refl keys.length)
  rw [take_length] at hlt
  exact Nat.add_lt_add_left hlt _

theorem place_lt (hk : k < keys.length) : place keys k < keys.length :=
  (place_mem_bucket hk).2.trans_le offset_le_length

/-- Different entries have different places. -/
theorem place_injective {j : ℕ} (hj : j < keys.length) (hk : k < keys.length)
    (h : place keys j = place keys k) : j = k := by
  have hbucket : keys.getD j 0 = keys.getD k 0 := by
    have hj' := place_mem_bucket hj
    have hk' := place_mem_bucket hk
    by_contra hne
    rcases Nat.lt_or_gt_of_ne hne with hlt | hlt
    · have hmono : offset keys (keys.getD j 0 + 1) ≤ offset keys (keys.getD k 0) := offset_mono hlt
      omega
    · have hmono : offset keys (keys.getD k 0 + 1) ≤ offset keys (keys.getD j 0) := offset_mono hlt
      omega
  by_contra hne
  unfold place at h
  rcases Nat.lt_or_gt_of_ne hne with hlt | hlt
  · have hcnt := count_take_lt hlt hk.le
    rw [hbucket] at h hcnt
    omega
  · have hcnt := count_take_lt hlt hj.le
    rw [hbucket] at h
    omega

/-- Each place is taken. -/
theorem exists_place (hi : i < keys.length) : ∃ k < keys.length, place keys k = i := by
  have hsurj := Finset.surjOn_of_injOn_of_card_le (place keys) (s := Finset.range keys.length)
    (t := Finset.range keys.length)
    (fun k hk => Finset.mem_coe.mpr (Finset.mem_range.mpr (place_lt (Finset.mem_range.mp hk))))
    (fun j hj k hk h => place_injective (Finset.mem_range.mp hj) (Finset.mem_range.mp hk) h)
    le_rfl
  obtain ⟨k, hk, hplace⟩ := hsurj (Finset.mem_coe.mpr (Finset.mem_range.mpr hi))
  exact ⟨k, Finset.mem_range.mp hk, hplace⟩

/-- The places of a bucket are those of the entries with its key. -/
theorem mem_bucket_iff : offset keys bucket ≤ i ∧ i < offset keys bucket + keys.count bucket ↔
    ∃ k < keys.length, keys.getD k 0 = bucket ∧ place keys k = i := by
  rw [← offset_succ]
  constructor
  · intro hmem
    obtain ⟨k, hk, hplace⟩ := exists_place (hmem.2.trans_le offset_le_length)
    refine ⟨k, hk, ?_, hplace⟩
    have hk' := place_mem_bucket hk
    by_contra hne
    rcases Nat.lt_or_gt_of_ne hne with hlt | hlt
    · have hmono : offset keys (keys.getD k 0 + 1) ≤ offset keys bucket := offset_mono hlt
      omega
    · have hmono : offset keys (bucket + 1) ≤ offset keys (keys.getD k 0) := offset_mono hlt
      omega
  · intro ⟨k, hk, hkey, hplace⟩
    have hk' := place_mem_bucket hk
    rw [hkey, hplace] at hk'
    exact hk'

def accumulate : ℕ → List ℕ → List ℕ
  | _, [] => []
  | start, size :: sizes => start :: accumulate (start + size) sizes

theorem length_accumulate (start : ℕ) (sizes : List ℕ) :
    (accumulate start sizes).length = sizes.length := by
  induction sizes generalizing start with
  | nil => rfl
  | cons size sizes ih => simp [accumulate, ih]

variable {sizes : List ℕ}

theorem getD_accumulate (start : ℕ) (h : bucket < sizes.length) :
    (accumulate start sizes).getD bucket 0 = start + (sizes.take bucket).sum := by
  induction sizes generalizing start bucket with
  | nil => exact absurd h (Nat.not_lt_zero _)
  | cons size sizes ih =>
    cases bucket with
    | zero => simp [accumulate]
    | succ bucket =>
      rw [accumulate, getD_cons_succ, ih _ (Nat.lt_of_succ_lt_succ h), take_succ_cons,
        sum_cons, add_assoc]

theorem sum_take_eq_offset (hsizes : ∀ b < sizes.length, sizes.getD b 0 = keys.count b)
    (h : bucket ≤ sizes.length) : (sizes.take bucket).sum = offset keys bucket := by
  induction bucket with
  | zero => simp [offset]
  | succ bucket ih =>
    have hsize := hsizes bucket h
    rw [getD_eq_getElem _ 0 h] at hsize
    rw [sum_take_succ _ _ h, ih (Nat.le_of_succ_le h), offset_succ, hsize]

/-- The starts of the buckets are accumulated from the numbers of their entries. -/
theorem accumulate_eq_offset (hsizes : ∀ b < sizes.length, sizes.getD b 0 = keys.count b)
    (h : bucket < sizes.length) : (accumulate 0 sizes).getD bucket 0 = offset keys bucket := by
  rw [getD_accumulate 0 h, zero_add]
  exact sum_take_eq_offset hsizes h.le

end WebKit.BucketPlacement
