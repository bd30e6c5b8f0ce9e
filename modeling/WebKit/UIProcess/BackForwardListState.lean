import WebKit.UIProcess.BackForwardList

/-!
What is saved of the list of a page's visited items. A filter, of which an
empty one accepts all, leaves some of them out, and the index of the current item is counted down at
these. Their positions are compared with the index as it stands then, so that entries are missed when
several have been left out before.
-/

namespace WebKit.BackForward

open List

variable {α σ : Type*}

structure BackForwardListState (σ : Type*) where
  items : List σ
  currentIndex : Option ℕ

namespace BackForwardList

variable (itemState : α → σ) (filter : α → Bool) (list : BackForwardList α)

def countDown (i currentIndex : ℕ) : ℕ :=
  if i ≤ currentIndex ∧ currentIndex ≠ 0 then currentIndex - 1 else currentIndex

def saveEntry (state : BackForwardListState σ) (entry : α × ℕ) : BackForwardListState σ :=
  if filter entry.1 then { state with items := state.items ++ [itemState entry.1] }
  else { state with currentIndex := state.currentIndex.map (countDown entry.2) }

def backForwardListState : BackForwardListState σ :=
  let state := list.entries.zipIdx.foldl (saveEntry itemState filter)
    ⟨[], if list.hasCurrentIndex then some list.currentIndex else none⟩
  if state.items.isEmpty then { state with currentIndex := none } else state

def restoreFromState (create : ℕ → σ → α) (state : BackForwardListState σ) : BackForwardList α :=
  { list with
    entries := state.items.mapIdx create
    hasCurrentIndex := state.currentIndex.isSome
    currentIndex := state.currentIndex.getD 0 }

def Consistent : Prop := list.hasCurrentIndex → list.currentIndex < list.entries.length

structure Saves (state : BackForwardListState σ) : Prop where
  items : state.items = (list.entries.filter filter).map itemState
  none_iff : state.currentIndex = none ↔
    list.entries.filter filter = [] ∨ list.hasCurrentIndex = false
  lt : ∀ {i}, state.currentIndex = some i → i < state.items.length
  position : ∀ {i current}, state.currentIndex = some i → list.currentItem = some current →
    filter current → i = (list.entries.take list.currentIndex).countP filter
  restores : ∀ (other : BackForwardList α) (create : ℕ → σ → α),
    (other.restoreFromState create state).Consistent

def rejected (entries : List α) : ℕ := entries.countP (!filter ·)

/-- The number of entries that are left out behind so many others that an index is not counted down
at them any more. -/
def missed (entries : List α) (currentIndex : ℕ) : ℕ :=
  (range entries.length).countP fun i => entries[i]?.any (!filter ·) &&
    decide (currentIndex < i + rejected filter (entries.take i))

/-- No entry before the current one is missed. If the current one is left out itself, less are missed
than are accepted behind it, unless none before it is left out. -/
def IndexFollows : Prop :=
  ∀ current, list.currentItem = some current → (∃ entry ∈ list.entries, filter entry) →
    let before := list.entries.take list.currentIndex
    let behind := list.entries.drop list.currentIndex
    if filter current then missed filter before list.currentIndex = 0
    else rejected filter before = 0 ∨
      missed filter before list.currentIndex < behind.countP filter

variable {entries : List α} {entry : α} {i c : ℕ}

theorem rejected_concat : rejected filter (entries ++ [entry]) =
    rejected filter entries + if filter entry then 0 else 1 := by
  rw [rejected, countP_append, countP_singleton]
  cases filter entry <;> rfl

theorem missed_concat : missed filter (entries ++ [entry]) c = missed filter entries c +
      if !filter entry ∧ c < entries.length + rejected filter entries then 1 else 0 := by
  rw [missed, length_append, length_singleton, range_succ, countP_append, countP_singleton]
  congr 1
  · refine countP_congr fun i hi => ?_
    have hi := mem_range.mp hi
    rw [getElem?_append_left hi, take_append_of_le_length hi.le]
  · rw [getElem?_concat_length, take_left]
    simp

/-- Where an entry is missed, those that are left out fill the list up to behind the index. -/
theorem missed_bounds (entries : List α) (c : ℕ) :
    missed filter entries c ≤ rejected filter entries ∧
      (missed filter entries c = 0 ∨ c + missed filter entries c <
        entries.length + rejected filter entries) := by
  induction entries using reverseRecOn with
  | nil => exact ⟨le_rfl, Or.inl rfl⟩
  | append_singleton entries entry ih =>
    rw [missed_concat, rejected_concat, length_append, length_singleton]
    split_ifs <;> grind

def pass (currentIndex : ℕ) (entry : α × ℕ) : ℕ :=
  if filter entry.1 then currentIndex else countDown entry.2 currentIndex

theorem foldl_saveEntry (entries : List α) (state : BackForwardListState σ) (n : ℕ) :
    (entries.zipIdx n).foldl (saveEntry itemState filter) state =
      ⟨state.items ++ (entries.filter filter).map itemState,
        state.currentIndex.map ((entries.zipIdx n).foldl (pass filter))⟩ := by
  induction entries generalizing state n with
  | nil => simp
  | cons entry entries ih =>
    rw [zipIdx_cons, foldl_cons, ih, saveEntry]
    by_cases hacc : filter entry <;> simp [hacc, pass, Function.comp_def]

/-- Up to the current entry the index is counted down at all entries that are left out but the missed
ones. -/
theorem foldl_pass_before (hlen : entries.length ≤ c) : entries.zipIdx.foldl (pass filter) c =
      c - (rejected filter entries - missed filter entries c) := by
  induction entries using reverseRecOn with
  | nil => rfl
  | append_singleton entries entry ih =>
    rw [length_append, length_singleton] at hlen
    have hmissed := missed_bounds filter entries c
    rw [zipIdx_append, foldl_append, ih (by omega), missed_concat, rejected_concat, zipIdx_singleton,
      foldl_cons, foldl_nil, pass, countDown]
    grind

theorem foldl_pass_behind (hi : c < i) : (entries.zipIdx i).foldl (pass filter) c = c := by
  induction entries generalizing i with
  | nil => rfl
  | cons entry entries ih =>
    have hdown : countDown i c = c := if_neg fun h => by omega
    rw [zipIdx_cons, foldl_cons, pass, hdown, ite_self]
    exact ih (Nat.lt_succ_of_lt hi)

theorem foldl_pass {current : α} (hcur : entries[c]? = some current) :
    entries.zipIdx.foldl (pass filter) c = pass filter (c - (rejected filter (entries.take c) -
        missed filter (entries.take c) c)) (current, c) := by
  obtain ⟨hlt, rfl⟩ := List.getElem?_eq_some_iff.mp hcur
  have hlen : (entries.take c).length = c := length_take_of_le hlt.le
  conv_lhs => rw [← take_append_drop c entries, drop_eq_getElem_cons hlt, zipIdx_append,
    zipIdx_cons, foldl_append, foldl_cons, foldl_pass_before filter hlen.le, hlen,
    Nat.zero_add]
  refine foldl_pass_behind filter (Nat.lt_succ_of_le ?_)
  rw [pass, countDown]
  split_ifs <;> omega

theorem backForwardListState_eq : list.backForwardListState itemState filter =
    ⟨(list.entries.filter filter).map itemState,
      if list.entries.filter filter = [] ∨ list.hasCurrentIndex = false then none
      else some (list.entries.zipIdx.foldl (pass filter) list.currentIndex)⟩ := by
  rw [backForwardListState, foldl_saveEntry, nil_append]
  cases hitems : list.entries.filter filter <;> cases list.hasCurrentIndex <;> simp

theorem saves_some_iff {current : α} (hcur : list.currentItem = some current)
    (hnone : ¬(list.entries.filter filter = [] ∨ list.hasCurrentIndex = false)) :
    list.Saves itemState filter ⟨(list.entries.filter filter).map itemState, some i⟩ ↔
      i < list.entries.countP filter ∧ (filter current →
        i = (list.entries.take list.currentIndex).countP filter) := by
  rw [countP_eq_length_filter, ← length_map itemState]
  refine ⟨fun h => ⟨h.lt rfl, h.position rfl hcur⟩, fun ⟨hlt, hposn⟩ =>
    ⟨rfl, iff_of_false nofun hnone, ?_, ?_, fun other create _ => ?_⟩⟩
  · rintro i ⟨⟩
    exact hlt
  · rintro i current' ⟨⟩ hcur'
    cases hcur.symm.trans hcur'
    exact hposn
  · rw [restoreFromState, length_mapIdx]
    exact hlt

/-- The saved index is right exactly if it follows the current item. -/
theorem backForwardListState_saves_iff (hconsistent : list.Consistent) :
    list.Saves itemState filter (list.backForwardListState itemState filter) ↔
      list.IndexFollows filter := by
  rw [backForwardListState_eq]
  by_cases hnone : list.entries.filter filter = [] ∨ list.hasCurrentIndex = false
  · rw [if_pos hnone]
    refine ⟨fun _ current hcur hent => ?_, fun _ => ⟨rfl, iff_of_true rfl hnone, nofun, nofun, nofun⟩⟩
    obtain ⟨entry, hmem, hacc⟩ := hent
    rcases hnone with hnil | hidx
    · exact absurd hacc (filter_eq_nil_iff.mp hnil entry hmem)
    · simp [currentItem, hidx] at hcur
  · rw [if_neg hnone]
    obtain ⟨hitems, hidx⟩ := not_or.mp hnone
    have hidx := (Bool.not_eq_false _).mp hidx
    obtain ⟨current, hcur⟩ : ∃ current, list.entries[list.currentIndex]? = some current :=
      ⟨_, getElem?_eq_getElem (hconsistent hidx)⟩
    have hitem : list.currentItem = some current := (if_pos hidx).trans hcur
    have hex : ∃ entry ∈ list.entries, filter entry := by
      simpa [filter_eq_nil_iff] using hitems
    have hlen := length_take_of_le (hconsistent hidx).le
    have hsplit := take_append_drop list.currentIndex list.entries
    have hbehind : current ∈ list.entries.drop list.currentIndex :=
      mem_of_getElem? (i := 0) (by rw [getElem?_drop]; exact hcur)
    rw [foldl_pass filter hcur, saves_some_iff itemState filter list hitem hnone, IndexFollows, hitem]
    simp only [Option.some.injEq, forall_eq', forall_prop_of_true hex]
    generalize list.entries.take list.currentIndex = before at *
    generalize list.entries.drop list.currentIndex = behind at *
    rw [← hsplit, countP_append]
    have hbefore : before.countP filter + rejected filter before = before.length := by
      rw [length_eq_countP_add_countP filter, rejected]
      simp
    have hmissed := missed_bounds filter before list.currentIndex
    have hpos := countP_pos_iff.mpr hex
    rw [← hsplit, countP_append] at hpos
    rw [pass, countDown]
    by_cases hacc : filter current
    · have hdrop := countP_pos_iff.mpr ⟨current, hbehind, hacc⟩
      rw [if_pos hacc, if_pos hacc, forall_prop_of_true hacc]
      omega
    · rw [if_neg hacc, if_neg hacc, and_iff_left fun h => absurd h hacc]
      split_ifs <;> omega

theorem saves_iff_two_entries :
    let list : BackForwardList ℕ := ⟨[0, 1], true, 1, 2⟩
    list.Consistent ∧ (list.Saves id (· == 1) (list.backForwardListState id (· == 1)) ↔
      list.IndexFollows (· == 1)) :=
  ⟨fun _ => by decide, backForwardListState_saves_iff _ _ _ fun _ => by decide⟩

/-- Of four entries the last one is current and the only one that is accepted: its index becomes 1. -/
theorem not_saves_last_of_four :
    let list : BackForwardList ℕ := ⟨[0, 1, 2, 3], true, 3, 4⟩
    list.Consistent ∧ ¬list.Saves id (· == 3) (list.backForwardListState id (· == 3)) :=
  ⟨fun _ => by decide, fun h => absurd (h.lt (i := 1) rfl) (by decide)⟩

end BackForwardList

end WebKit.BackForward
