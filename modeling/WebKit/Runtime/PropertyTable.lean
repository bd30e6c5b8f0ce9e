import WebKit.Foundation.BitFilling
import WebKit.Foundation.LinearProbing
import WebKit.Foundation.Runs

/-!
The table of an object's properties. The entries stand in an array in the order in which they were
added; a second array, the index, is searched by linear probing and holds the places of the entries,
counted from one. A removed entry stays in the array with a mark in place of its key, and so does
its place in the index, until the table is rehashed.
-/

namespace WebKit.Runtime

open List

inductive EntryKey (K : Type) where
  | null
  | deleted
  | live (key : K)
  deriving DecidableEq

structure PropertyMapEntry (K : Type) where
  key : EntryKey K
  offset : ℤ
  attributes : UInt8
  hasInferredType : Bool
  deriving DecidableEq

namespace PropertyMapEntry

variable {K : Type}

def zero : PropertyMapEntry K := ⟨.null, 0, 0, false⟩

def isDeleted : PropertyMapEntry K → Bool
  | ⟨.deleted, _, _, _⟩ => true
  | _ => false

theorem isDeleted_iff {entry : PropertyMapEntry K} : entry.isDeleted ↔ entry.key = .deleted := by
  obtain ⟨key, offset, attributes, hasInferredType⟩ := entry
  cases key <;> simp [isDeleted]

theorem isDeleted_of_live {entry : PropertyMapEntry K} {key : K} (hkey : entry.key = .live key) :
    entry.isDeleted = false := by
  rw [Bool.eq_false_iff, Ne, isDeleted_iff, hkey]
  exact nofun

end PropertyMapEntry

structure PropertyTable (K : Type) where
  indexSize : ℕ
  index : List ℕ
  table : List (PropertyMapEntry K)
  keyCount : ℕ
  deletedCount : ℕ
  deletedOffsets : Option (List ℤ)
  deriving DecidableEq

inductive EffectOnPropertyOffset where
  | propertyOffsetMayChange
  | propertyOffsetMustNotChange
  deriving DecidableEq

/-- How a call can fail: it reads or writes outside of the arrays or probes without end, or a release
assertion stops it. -/
inductive Failure where
  | outside
  | releaseAssert
  deriving DecidableEq

def nextPowerOf2 (v : ℕ) : ℕ :=
  let v := (v + (2 ^ 32 - 1)) % 2 ^ 32
  let v := v ||| v >>> 1
  let v := v ||| v >>> 2
  let v := v ||| v >>> 4
  let v := v ||| v >>> 8
  let v := v ||| v >>> 16
  (v + 1) % 2 ^ 32

def minimumTableSize : ℕ := 16

def sizeForCapacity (capacity : ℕ) : ℕ :=
  if capacity < minimumTableSize / 2 then minimumTableSize
  else nextPowerOf2 ((capacity + 1) % 2 ^ 32) * 2 % 2 ^ 32

theorem nextPowerOf2_eq {n : ℕ} (hn : n < 2 ^ 31) : nextPowerOf2 (n + 1) = 2 ^ n.size := by
  have hfill : nextPowerOf2 (n + 1) =
      (BitFilling.fill 5 ((n + 1 + (2 ^ 32 - 1)) % 2 ^ 32) + 1) % 2 ^ 32 := rfl
  have hsize : n.size ≤ 31 := Nat.size_le.mpr hn
  have hpow : 2 ^ n.size ≤ 2 ^ 31 := Nat.pow_le_pow_right Nat.two_pos hsize
  have hpos := Nat.two_pow_pos n.size
  rw [hfill, show (n + 1 + (2 ^ 32 - 1)) % 2 ^ 32 = n by omega, BitFilling.fill_eq (by omega)]
  omega

/-- A capacity that is not too large gives a power of two that is more than twice as large. -/
theorem sizeForCapacity_spec {capacity : ℕ} (hcap : capacity < 2 ^ 30) :
    ∃ k, 4 ≤ k ∧ k ≤ 31 ∧ sizeForCapacity capacity = 2 ^ k ∧ capacity < sizeForCapacity capacity >>> 1 := by
  unfold sizeForCapacity
  by_cases hsmall : capacity < minimumTableSize / 2
  · rw [if_pos hsmall]
    exact ⟨4, le_rfl, by omega, rfl, hsmall⟩
  · have hsize : capacity.size ≤ 30 := Nat.size_le.mpr hcap
    have hsize' : 3 < capacity.size := by
      rw [Nat.lt_size]
      unfold minimumTableSize at hsmall
      omega
    have hpow : 2 ^ capacity.size ≤ 2 ^ 30 := Nat.pow_le_pow_right Nat.two_pos hsize
    have hlt : capacity < 2 ^ capacity.size := Nat.lt_size_self capacity
    rw [if_neg hsmall, Nat.mod_eq_of_lt (by omega : capacity + 1 < 2 ^ 32),
      nextPowerOf2_eq (by omega), Nat.mod_eq_of_lt (by omega), Nat.shiftRight_one]
    exact ⟨capacity.size + 1, by omega, by omega, (Nat.pow_succ _ _).symm, by omega⟩

def firstOutOfLineOffset : ℤ := 100

def offsetForPropertyNumber (propertyNumber inlineCapacity : ℤ) : ℤ :=
  if propertyNumber ≥ inlineCapacity then propertyNumber + firstOutOfLineOffset - inlineCapacity
  else propertyNumber

namespace PropertyTable

variable {K : Type} (t : PropertyTable K)

def indexMask : ℕ := (t.indexSize + (2 ^ 32 - 1)) % 2 ^ 32

def tableCapacity : ℕ := t.indexSize >>> 1

def deletedEntryIndex : ℕ := t.tableCapacity + 1

def usedCount : ℕ := t.keyCount + t.deletedCount

def canInsert : Bool := t.usedCount < t.tableCapacity

def create (indexSize : ℕ) (deletedOffsets : Option (List ℤ)) : PropertyTable K where
  indexSize := indexSize
  index := replicate indexSize 0
  table := replicate ((indexSize >>> 1) + 1) .zero
  keyCount := 0
  deletedCount := 0
  deletedOffsets := deletedOffsets

section Probing

variable [DecidableEq K] (hash : K → ℕ)

/-- The place of the entry of a key and the slot where the search ends, unless it comes round. -/
def probe (t : PropertyTable K) (key : K) : ℕ → ℕ → Except Failure (Option ℕ × ℕ)
  | 0, _ => .error .outside
  | probes + 1, hash =>
    match t.index[hash &&& t.indexMask]? with
    | none => .error .outside
    | some 0 => .ok (none, hash &&& t.indexMask)
    | some (place + 1) =>
      match t.table[place]? with
      | none => .error .outside
      | some entry =>
        if entry.key = .live key then .ok (some place, hash &&& t.indexMask)
        else probe t key probes ((hash + 1) % 2 ^ 32)

def find (t : PropertyTable K) (key : K) : Except Failure (Option ℕ × ℕ) :=
  t.probe key t.indexSize (hash key)

def get (t : PropertyTable K) (key : K) : Except Failure (Option ℕ) :=
  if t.keyCount = 0 then .ok none
  else (t.probe key t.indexSize (hash key)).map Prod.fst

def place (t : PropertyTable K) (slot : ℕ) (entry : PropertyMapEntry K) :
    Except Failure (PropertyTable K) :=
  if t.usedCount < t.table.length then
    .ok { t with
      index := t.index.set slot (t.usedCount + 1)
      table := t.table.set t.usedCount entry
      keyCount := t.keyCount + 1 }
  else .error .outside

def reinsert (t : PropertyTable K) (entry : PropertyMapEntry K) : Except Failure (PropertyTable K) :=
  match entry.key with
  | .live key => do
    let (_, slot) ← t.find hash key
    t.place slot entry
  | _ => .error .outside

def skipDeletedEntries : List (PropertyMapEntry K) → ℕ → Except Failure ℕ
  | [], _ => .error .outside
  | entry :: rest, pointer =>
    if entry.isDeleted then skipDeletedEntries rest (pointer + 1) else .ok pointer

def iterate (t : PropertyTable K) : ℕ → ℕ → Except Failure (List (PropertyMapEntry K))
  | 0, _ => .error .outside
  | steps + 1, pointer =>
    if pointer = t.usedCount then .ok []
    else
      match t.table[pointer]? with
      | none => .error .outside
      | some entry => do
        let next ← skipDeletedEntries (t.table.drop (pointer + 1)) (pointer + 1)
        let rest ← t.iterate steps next
        return entry :: rest

def inOrder (t : PropertyTable K) : Except Failure (List (PropertyMapEntry K)) := do
  let begin ← skipDeletedEntries t.table 0
  t.iterate (t.table.length + 1) begin

def rehash (t : PropertyTable K) (newCapacity : ℕ) : Except Failure (PropertyTable K) := do
  let entries ← t.inOrder
  entries.foldlM (reinsert hash) (create (sizeForCapacity newCapacity) t.deletedOffsets)

def ensureCapacity (t : PropertyTable K) (key : K) (slot : ℕ) : Except Failure (PropertyTable K × ℕ) :=
  if t.canInsert then .ok (t, slot)
  else do
    let t ← t.rehash hash ((t.keyCount + 1) % 2 ^ 32)
    let (_, slot) ← t.find hash key
    .ok (t, slot)

def add (t : PropertyTable K) (entry : PropertyMapEntry K) (offset : ℤ)
    (offsetEffect : EffectOnPropertyOffset) : Except Failure (PropertyTable K × Bool × ℤ) :=
  match entry.key with
  | .live key => do
    match ← t.find hash key with
    | (some found, _) =>
      match t.table[found]? with
      | none => .error .outside
      | some existing =>
        if existing.offset ≤ offset then .ok (t, false, offset) else .error .releaseAssert
    | (none, slot) =>
      let (t, slot) ← t.ensureCapacity hash key slot
      let t ← t.place slot entry
      match offsetEffect with
      | .propertyOffsetMayChange => .ok (t, true, max offset entry.offset)
      | .propertyOffsetMustNotChange =>
        if entry.offset ≤ offset then .ok (t, true, offset) else .error .releaseAssert
  | _ => .error .outside

def markDeleted (t : PropertyTable K) (found slot : ℕ) : PropertyTable K :=
  { t with
    index := t.index.set slot t.deletedEntryIndex
    table := t.table.modify found fun entry => { entry with key := .deleted }
    keyCount := t.keyCount - 1
    deletedCount := t.deletedCount + 1 }

def remove (t : PropertyTable K) (key : K) : Except Failure (PropertyTable K) := do
  match ← t.find hash key with
  | (none, _) => .ok t
  | (some found, slot) =>
    let t := t.markDeleted found slot
    if t.deletedCount * 4 % 2 ^ 32 ≥ t.indexSize then t.rehash hash t.keyCount else .ok t

def copy (t : PropertyTable K) (newCapacity : ℕ) : Except Failure (PropertyTable K) := do
  if sizeForCapacity newCapacity = t.indexSize then
    let _ ← t.inOrder
    .ok t
  else
    let entries ← t.inOrder
    entries.foldlM (reinsert hash) (create (sizeForCapacity newCapacity) t.deletedOffsets)

end Probing

def size : ℕ := t.keyCount

def propertyStorageSize : ℕ :=
  t.size + match t.deletedOffsets with
    | some offsets => offsets.length
    | none => 0

def hasDeletedOffset : Bool :=
  match t.deletedOffsets with
  | some offsets => !offsets.isEmpty
  | none => false

def addDeletedOffset (offset : ℤ) : PropertyTable K :=
  { t with deletedOffsets := some (t.deletedOffsets.getD [] ++ [offset]) }

def nextOffset (inlineCapacity : ℤ) : ℤ × PropertyTable K :=
  match t.deletedOffsets with
  | some offsets =>
    match offsets.getLast? with
    | some offset => (offset, { t with deletedOffsets := some offsets.dropLast })
    | none => (offsetForPropertyNumber t.size inlineCapacity, t)
  | none => (offsetForPropertyNumber t.size inlineCapacity, t)

section Validity

variable {hash : K → ℕ} {t : PropertyTable K} {used : List (PropertyMapEntry K)} {key : K}

/-- The slots of the index that are probed for a key up to a number of steps are not empty, and the
last one holds the place. -/
structure Path (hash : K → ℕ) (t : PropertyTable K) (key : K) (steps value : ℕ) : Prop where
  lt : steps < t.indexSize
  value_eq : t.index[(hash key + steps) % t.indexSize]? = some value
  before : ∀ earlier < steps, t.index[(hash key + earlier) % t.indexSize]? ≠ some 0

structure Valid (hash : K → ℕ) (t : PropertyTable K) (used : List (PropertyMapEntry K)) : Prop where
  exists_log : ∃ k, 4 ≤ k ∧ k ≤ 31 ∧ t.indexSize = 2 ^ k
  length_index : t.index.length = t.indexSize
  table_eq : t.table = used ++ replicate (t.tableCapacity + 1 - used.length) .zero
  length_used : used.length = t.usedCount
  used_le : t.usedCount ≤ t.tableCapacity
  key_ne_null : ∀ entry ∈ used, entry.key ≠ .null
  keyCount_eq : t.keyCount = (used.filter (!·.isDeleted)).length
  distinct : used.Pairwise fun entry other => entry.key = other.key → entry.key = .deleted
  occupied : t.index.countP (· ≠ 0) ≤ t.usedCount
  places : ∀ slot place : ℕ, t.index[slot]? = some (place + 1) →
    place < used.length ∨ place = t.tableCapacity
  reached : ∀ (place : ℕ) entry key, used[place]? = some entry → entry.key = .live key →
    ∃ steps, t.Path hash key steps (place + 1)

def Settled (hash : K → ℕ) (t : PropertyTable K) (entries : List (PropertyMapEntry K)) : Prop :=
  ∃ used, t.Valid hash used ∧ t.deletedCount * 4 < t.indexSize ∧
    entries = used.filter (!·.isDeleted)

/-- Two entries that differ are not both live with one key. -/
theorem ne_live {entry other : PropertyMapEntry K}
    (hdiffer : entry.key = other.key → entry.key = .deleted) (hkey : entry.key = .live key) :
    other.key ≠ .live key := by
  intro hkey'
  cases hkey.symm.trans (hdiffer (hkey.trans hkey'.symm))

theorem countP_set_le (l : List ℕ) (slot value : ℕ) :
    (l.set slot value).countP (· ≠ 0) ≤ l.countP (· ≠ 0) + 1 := by
  by_cases hslot : slot < l.length
  · rw [countP_set hslot]
    split_ifs <;> omega
  · rw [set_eq_of_length_le (by omega)]
    omega

/-- A path stays one when an empty slot is filled, or a slot other than its last is overwritten. -/
theorem Path.set {steps value slot value' : ℕ} (hpath : t.Path hash key steps value) {t' : PropertyTable K}
    (hidx : t'.index = t.index.set slot value') (hsize : t'.indexSize = t.indexSize)
    (hval' : value' ≠ 0) (hslot : t.index[slot]? ≠ some value) : t'.Path hash key steps value := by
  refine ⟨hsize ▸ hpath.lt, ?_, ?_⟩
  · have hne : slot ≠ (hash key + steps) % t.indexSize := by
      rintro rfl
      exact hslot hpath.value_eq
    rw [hidx, hsize, getElem?_set_ne hne, hpath.value_eq]
  · intro earlier hearlier
    rw [hidx, hsize, getElem?_set]
    split_ifs with heq
    · exact fun hzero => hval' (Option.some.inj hzero)
    · exact nofun
    · exact hpath.before earlier hearlier

namespace Valid

section

variable (h : t.Valid hash used)

include h

theorem two_mul_tableCapacity : 2 * t.tableCapacity = t.indexSize := by
  obtain ⟨k, hk, -, hsize⟩ := h.exists_log
  obtain ⟨j, rfl⟩ : ∃ j, k = j + 1 := ⟨k - 1, by omega⟩
  rw [tableCapacity, hsize, Nat.shiftRight_one, Nat.pow_succ]
  omega

theorem indexSize_pos : 0 < t.indexSize := by
  obtain ⟨k, -, -, hsize⟩ := h.exists_log
  rw [hsize]
  exact Nat.two_pow_pos k

/-- The mask takes the remainder. -/
theorem and_indexMask (n : ℕ) : n &&& t.indexMask = n % t.indexSize := by
  obtain ⟨k, -, hk, hsize⟩ := h.exists_log
  have hle : 2 ^ k ≤ 2 ^ 31 := Nat.pow_le_pow_right Nat.two_pos hk
  have hpos := Nat.two_pow_pos k
  have hmask : t.indexMask = 2 ^ k - 1 := by
    rw [indexMask, hsize]
    omega
  rw [hmask, Nat.and_two_pow_sub_one_eq_mod, hsize]

/-- The hash wraps around without effect on the slots. -/
theorem mod_add_mod (n m : ℕ) : (n % 2 ^ 32 + m) % t.indexSize = (n + m) % t.indexSize := by
  obtain ⟨k, -, hk, hsize⟩ := h.exists_log
  have hdvd : t.indexSize ∣ 2 ^ 32 := hsize ▸ Nat.pow_dvd_pow 2 (by omega)
  rw [Nat.add_mod, Nat.mod_mod_of_dvd _ hdvd, ← Nat.add_mod]

theorem getElem?_of_used {place : ℕ} {entry : PropertyMapEntry K} (hent : used[place]? = some entry) :
    t.table[place]? = some entry := by
  rw [h.table_eq, getElem?_append_left (List.getElem?_eq_some_iff.mp hent).1, hent]

theorem getElem?_table {place : ℕ} (hplace : place < used.length ∨ place = t.tableCapacity) :
    ∃ entry, t.table[place]? = some entry ∧ (used[place]? = some entry ∨ entry = .zero) := by
  by_cases hlt : place < used.length
  · have hget := getElem?_eq_getElem hlt
    exact ⟨_, h.getElem?_of_used hget, .inl hget⟩
  · have hle := h.length_used ▸ h.used_le
    obtain rfl := hplace.resolve_left hlt
    refine ⟨_, ?_, .inr rfl⟩
    rw [h.table_eq, getElem?_append_right hle, getElem?_replicate, if_pos (by omega)]

/-- The entries of different places have different keys. -/
theorem place_eq {place other : ℕ} {entry entry' : PropertyMapEntry K}
    (hent : used[place]? = some entry) (hent' : used[other]? = some entry')
    (hkey : entry.key = .live key) (hkey' : entry'.key = .live key) : place = other := by
  obtain ⟨hlt, rfl⟩ := List.getElem?_eq_some_iff.mp hent
  obtain ⟨hlt', rfl⟩ := List.getElem?_eq_some_iff.mp hent'
  have hdist := pairwise_iff_getElem.mp h.distinct
  rcases Nat.lt_trichotomy place other with hplace | rfl | hplace
  · exact absurd hkey' (ne_live (hdist place other hlt hlt' hplace) hkey)
  · rfl
  · exact absurd hkey (ne_live (hdist other place hlt' hlt hplace) hkey')

/-- A place that a search stops at holds an entry with the key. -/
theorem used_of_place {slot place : ℕ} {entry : PropertyMapEntry K}
    (hplace : t.index[slot]? = some (place + 1)) (hent : t.table[place]? = some entry)
    (hkey : entry.key = .live key) : used[place]? = some entry := by
  obtain ⟨entry', hent', hused | rfl⟩ := h.getElem?_table (h.places _ _ hplace)
  all_goals cases hent.symm.trans hent'
  · exact hused
  · cases hkey

/-- There is an empty slot. -/
theorem exists_empty : ∃ slot < t.indexSize, t.index[slot]? = some 0 := by
  have hlt : t.index.countP (· ≠ 0) < t.index.length := by
    have := h.occupied
    have := h.used_le
    have := h.two_mul_tableCapacity
    have := h.indexSize_pos
    rw [h.length_index]
    omega
  by_contra hnone
  have hall : ∀ value ∈ t.index, decide (value ≠ 0) := by
    intro value hval
    obtain ⟨slot, hslot, rfl⟩ := mem_iff_getElem.mp hval
    refine decide_eq_true fun hzero => hnone ⟨slot, h.length_index ▸ hslot, ?_⟩
    rw [getElem?_eq_getElem hslot, hzero]
  rw [countP_eq_length.mpr hall] at hlt
  omega

end

section Search

variable [DecidableEq K]

def Stops (t : PropertyTable K) (key : K) (slot : ℕ) : Prop :=
  t.index[slot]? = some 0 ∨
    ∃ place entry, t.index[slot]? = some (place + 1) ∧ t.table[place]? = some entry ∧
      entry.key = .live key

def answer (t : PropertyTable K) (slot : ℕ) : Option ℕ × ℕ :=
  match t.index[slot]? with
  | some (place + 1) => (some place, slot)
  | _ => (none, slot)

variable {steps newCapacity : ℕ} {entry : PropertyMapEntry K}

section

variable (h : t.Valid hash used)

include h

/-- The search ends at the first slot at which it stops. -/
theorem probe_eq {probes start : ℕ} (hprobes : steps < probes)
    (hstops : Stops t key ((start + steps) % t.indexSize))
    (hbefore : ∀ earlier < steps, ¬Stops t key ((start + earlier) % t.indexSize)) :
    t.probe key probes start = .ok (answer t ((start + steps) % t.indexSize)) := by
  induction steps generalizing probes start with
  | zero =>
    obtain ⟨probes, rfl⟩ : ∃ n, probes = n + 1 := ⟨probes - 1, by omega⟩
    simp only [add_zero] at hstops ⊢
    rw [probe, h.and_indexMask, answer]
    rcases hstops with hempty | ⟨place, entry, hplace, hent, hkey⟩
    · simp only [hempty]
    · simp only [hplace, hent, if_pos hkey]
  | succ steps ih =>
    obtain ⟨probes, rfl⟩ : ∃ n, probes = n + 1 := ⟨probes - 1, by omega⟩
    have hfst := hbefore 0 (Nat.succ_pos _)
    rw [add_zero] at hfst
    have hrest : t.probe key probes ((start + 1) % 2 ^ 32) =
        .ok (answer t ((start + (steps + 1)) % t.indexSize)) := by
      have hshift (n : ℕ) : ((start + 1) % 2 ^ 32 + n) % t.indexSize =
          (start + (n + 1)) % t.indexSize := by
        rw [h.mod_add_mod, add_assoc, add_comm 1]
      rw [← hshift]
      apply ih (by omega)
      · rwa [hshift]
      · intro earlier hearlier
        rw [hshift]
        exact hbefore (earlier + 1) (by omega)
    have hslot : start % t.indexSize < t.index.length := by
      rw [h.length_index]
      exact Nat.mod_lt _ h.indexSize_pos
    rw [probe, h.and_indexMask, ← hrest]
    cases hval : t.index[start % t.indexSize]? with
    | none =>
      rw [getElem?_eq_none_iff] at hval
      omega
    | some value =>
      cases value with
      | zero => exact absurd (.inl hval) hfst
      | succ place =>
        obtain ⟨entry, hent, -⟩ := h.getElem?_table (h.places _ _ hval)
        have hkey : entry.key ≠ .live key :=
          fun hkey => hfst (.inr ⟨place, entry, hval, hent, hkey⟩)
        simp only [hent, if_neg hkey]

theorem find_live {place : ℕ} (hent : used[place]? = some entry) (hkey : entry.key = .live key) :
    ∃ slot, t.find hash key = .ok (some place, slot) ∧ t.index[slot]? = some (place + 1) := by
  obtain ⟨target, hpath⟩ := h.reached place entry key hent hkey
  have hstop : Stops t key ((hash key + target) % t.indexSize) :=
    .inr ⟨place, entry, hpath.value_eq, h.getElem?_of_used hent, hkey⟩
  obtain ⟨steps, hreach⟩ :=
    LinearProbing.exists_reaches (Nat.mod_lt _ h.indexSize_pos) hstop (hash key)
  have hle : steps ≤ target := by
    by_contra hlt
    exact hreach.before target (by omega) hstop
  have hne : t.index[(hash key + steps) % t.indexSize]? ≠ some 0 := by
    rcases Nat.lt_or_eq_of_le hle with hlt | rfl
    · exact hpath.before steps hlt
    · rw [hpath.value_eq]
      exact fun heq => absurd (Option.some.inj heq) (Nat.succ_ne_zero _)
  obtain ⟨other, entry', hval, hoth, hkey'⟩ := hreach.stops.resolve_left hne
  obtain rfl := h.place_eq (h.used_of_place hval hoth hkey') hent hkey' hkey
  refine ⟨_, ?_, hval⟩
  rw [find, h.probe_eq hreach.lt hreach.stops hreach.before, answer, hval]

theorem find_absent (habs : ∀ entry ∈ used, entry.key ≠ .live key) :
    ∃ steps, t.find hash key = .ok (none, (hash key + steps) % t.indexSize) ∧
      t.Path hash key steps 0 := by
  obtain ⟨slot, hslot, hempty⟩ := h.exists_empty
  have hstop : Stops t key slot := .inl hempty
  obtain ⟨steps, hreach⟩ := LinearProbing.exists_reaches hslot hstop (hash key)
  have hval : t.index[(hash key + steps) % t.indexSize]? = some 0 := by
    rcases hreach.stops with hval | ⟨place, entry, hval, hent, hkey⟩
    · exact hval
    · exact absurd hkey (habs _ (mem_of_getElem? (h.used_of_place hval hent hkey)))
  refine ⟨steps, ?_, hreach.lt, hval, ?_⟩
  · rw [find, h.probe_eq hreach.lt hreach.stops hreach.before, answer, hval]
  · exact fun earlier hearlier hzero => hreach.before earlier hearlier (.inl hzero)

omit [DecidableEq K] in
/-- A new entry is put behind the used ones. -/
theorem place (hroom : t.usedCount < t.tableCapacity)
    (hkey : entry.key = .live key) (habs : ∀ other ∈ used, other.key ≠ .live key)
    (hpath : t.Path hash key steps 0) :
    ∃ t', t.place ((hash key + steps) % t.indexSize) entry = .ok t' ∧
      t'.Valid hash (used ++ [entry]) ∧ t'.indexSize = t.indexSize ∧
      t'.deletedCount = t.deletedCount ∧ t'.deletedOffsets = t.deletedOffsets := by
  have hlen := h.length_used
  have htable : t.table.length = t.tableCapacity + 1 := by
    rw [h.table_eq, length_append, length_replicate]
    omega
  have hslot : (hash key + steps) % t.indexSize < t.index.length := by
    rw [h.length_index]
    exact Nat.mod_lt _ h.indexSize_pos
  refine ⟨_, if_pos (by omega), ?_, rfl, rfl, rfl⟩
  have hlive : entry.isDeleted = false := PropertyMapEntry.isDeleted_of_live hkey
  have hcnt : t.keyCount + 1 + t.deletedCount = t.usedCount + 1 := Nat.add_right_comm _ _ _
  constructor
  · exact h.exists_log
  · rw [length_set, h.length_index]
  · have hsplit : t.tableCapacity + 1 - used.length = t.tableCapacity - used.length + 1 := by omega
    have hrest : t.tableCapacity + 1 - (used ++ [entry]).length = t.tableCapacity - used.length := by
      rw [length_append, length_singleton]
      omega
    change t.table.set t.usedCount entry =
      used ++ [entry] ++ replicate (t.tableCapacity + 1 - (used ++ [entry]).length) _
    rw [h.table_eq, ← hlen, set_append_right _ _ le_rfl, Nat.sub_self, hsplit, hrest,
      replicate_succ, set_cons_zero, append_assoc, singleton_append]
  · change (used ++ [entry]).length = t.keyCount + 1 + t.deletedCount
    rw [length_append, length_singleton, hlen, hcnt]
  · change t.keyCount + 1 + t.deletedCount ≤ t.tableCapacity
    omega
  · intro other hoth
    rcases mem_append.mp hoth with hoth | hoth
    · exact h.key_ne_null other hoth
    · rw [mem_singleton.mp hoth, hkey]
      exact nofun
  · change t.keyCount + 1 = _
    rw [filter_append, length_append, ← h.keyCount_eq, filter_singleton, hlive]
    rfl
  · rw [pairwise_append]
    refine ⟨h.distinct, pairwise_singleton _ _, ?_⟩
    intro other hoth new hnew hsame
    rw [mem_singleton.mp hnew, hkey] at hsame
    exact absurd hsame (habs other hoth)
  · have hset := countP_set_le t.index ((hash key + steps) % t.indexSize) (t.usedCount + 1)
    refine le_trans hset ?_
    change _ ≤ t.keyCount + 1 + t.deletedCount
    rw [hcnt]
    exact Nat.succ_le_succ h.occupied
  · intro slot place hplace
    rw [length_append, length_singleton]
    rw [getElem?_set] at hplace
    split_ifs at hplace with heq
    · have := Option.some.inj hplace
      omega
    · rcases h.places slot place hplace with hlt | hlast
      · omega
      · exact .inr hlast
  · intro place other key' hoth hkey'
    rw [getElem?_append] at hoth
    split_ifs at hoth with hlt
    · obtain ⟨steps', hpath'⟩ := h.reached place other key' hoth hkey'
      refine ⟨steps', hpath'.set rfl rfl (Nat.succ_ne_zero _) ?_⟩
      rw [hpath.value_eq]
      exact fun heq => absurd (Option.some.inj heq).symm (Nat.succ_ne_zero _)
    · rw [getElem?_singleton] at hoth
      split_ifs at hoth with hzero
      cases hoth
      obtain rfl : key = key' := by
        rw [hkey] at hkey'
        exact EntryKey.live.inj hkey'
      have hplace : place = t.usedCount := by omega
      refine ⟨steps, hpath.lt, ?_, ?_⟩
      · change (t.index.set _ _)[(hash key + steps) % t.indexSize]? = _
        rw [getElem?_set_self hslot, hplace]
      · intro earlier hearlier
        rw [getElem?_set]
        split_ifs
        · exact fun heq => absurd (Option.some.inj heq) (Nat.succ_ne_zero _)
        · exact hpath.before earlier hearlier

omit h in
omit [DecidableEq K] in
theorem of_create {k : ℕ} (hk : 4 ≤ k) (hk' : k ≤ 31) (deletedOffsets : Option (List ℤ)) :
    (create (2 ^ k) deletedOffsets : PropertyTable K).Valid hash [] := by
  constructor
  · exact ⟨k, hk, hk', rfl⟩
  · exact length_replicate
  · rfl
  · rfl
  · exact Nat.zero_le _
  · exact nofun
  · rfl
  · exact List.Pairwise.nil
  · change countP _ (replicate (2 ^ k) 0) ≤ 0
    rw [countP_replicate]
    exact le_rfl
  · intro slot place hplace
    change (replicate (2 ^ k) 0)[slot]? = _ at hplace
    rw [getElem?_replicate] at hplace
    split_ifs at hplace
    exact absurd (Option.some.inj hplace).symm (Nat.succ_ne_zero _)
  · exact nofun

/-- Entries with other keys are inserted behind the used ones. -/
theorem foldlM_reinsert {entries : List (PropertyMapEntry K)}
    (hlive : ∀ entry ∈ entries, ∃ key, entry.key = .live key)
    (hdist : (used ++ entries).Pairwise fun entry other => entry.key = other.key →
      entry.key = .deleted)
    (hroom : used.length + entries.length ≤ t.tableCapacity) :
    ∃ t', entries.foldlM (reinsert hash) t = .ok t' ∧ t'.Valid hash (used ++ entries) ∧
      t'.indexSize = t.indexSize ∧ t'.deletedCount = t.deletedCount ∧
      t'.deletedOffsets = t.deletedOffsets := by
  induction entries generalizing t used with
  | nil => exact ⟨t, rfl, by rwa [append_nil], rfl, rfl, rfl⟩
  | cons entry entries ih =>
    obtain ⟨key, hkey⟩ := hlive entry mem_cons_self
    have habs : ∀ other ∈ used, other.key ≠ .live key := by
      intro other hoth hsame
      exact ne_live ((pairwise_append.mp hdist).2.2 other hoth entry mem_cons_self) hsame hkey
    obtain ⟨steps, hfind, hpath⟩ := h.find_absent habs
    rw [length_cons] at hroom
    have hused := h.length_used
    obtain ⟨t', hplace, hvalid, hsize, hdel, hoffs⟩ := h.place (by omega) hkey habs hpath
    have hreinsert : t.reinsert hash entry = .ok t' := by
      simp only [reinsert, hkey, hfind]
      exact hplace
    have hcap : t'.tableCapacity = t.tableCapacity := by
      rw [tableCapacity, tableCapacity, hsize]
    obtain ⟨t'', hfold, hvalid', hsize', hdel', hoffs'⟩ :=
      ih hvalid (fun other hoth => hlive other (mem_cons_of_mem _ hoth))
        (by rwa [append_assoc, singleton_append])
        (by rw [length_append, length_singleton, hcap]; omega)
    refine ⟨t'', ?_, ?_, hsize'.trans hsize, hdel'.trans hdel, hoffs'.trans hoffs⟩
    · rw [foldlM_cons, hreinsert]
      exact hfold
    · rwa [append_assoc, singleton_append] at hvalid'

omit h in
omit [DecidableEq K] in
theorem skipDeletedEntries_eq (entries rest : List (PropertyMapEntry K)) (pointer : ℕ) :
    skipDeletedEntries (entries ++ .zero :: rest) pointer =
      .ok (pointer + (entries.takeWhile PropertyMapEntry.isDeleted).length) := by
  induction entries generalizing pointer with
  | nil => rfl
  | cons entry entries ih =>
    rw [cons_append, skipDeletedEntries]
    by_cases hdel : entry.isDeleted
    · rw [if_pos hdel, ih, takeWhile_cons_of_pos hdel, length_cons]
      congr 1
      omega
    · rw [if_neg hdel, takeWhile_cons_of_neg hdel]
      rfl

omit [DecidableEq K] in
/-- Behind the used entries there is at least one that is zero. -/
theorem exists_table_eq : ∃ rest, t.table = used ++ .zero :: rest := by
  have hle := h.used_le
  have hlen := h.length_used
  refine ⟨replicate (t.tableCapacity - used.length) .zero, ?_⟩
  rw [h.table_eq, ← replicate_succ, Nat.succ_sub (by omega)]

omit [DecidableEq K] in
/-- The iteration from the next entry that is not deleted gives those that are not deleted. -/
theorem iterate_eq {before rest : List (PropertyMapEntry K)}
    (hused : used = before ++ rest) (hsteps : rest.length < steps) :
    t.iterate steps (before.length + (rest.takeWhile PropertyMapEntry.isDeleted).length) =
      .ok (rest.filter (!·.isDeleted)) := by
  induction steps generalizing before rest with
  | zero => omega
  | succ steps ih =>
    have hsplit := takeWhile_append_dropWhile (p := PropertyMapEntry.isDeleted) (l := rest)
    have hdel : (rest.takeWhile PropertyMapEntry.isDeleted).filter (!·.isDeleted) = [] := by
      rw [filter_eq_nil_iff]
      intro entry hent
      rw [mem_takeWhile_imp hent]
      exact nofun
    generalize rest.takeWhile PropertyMapEntry.isDeleted = skipped at hsplit hdel ⊢
    have hlen := h.length_used
    obtain ⟨zeros, htable⟩ := h.exists_table_eq
    cases hdrop : rest.dropWhile PropertyMapEntry.isDeleted with
    | nil =>
      rw [hdrop, append_nil] at hsplit
      subst hsplit
      rw [hused, length_append] at hlen
      rw [iterate, if_pos hlen, hdel]
    | cons entry after =>
      rw [hdrop] at hsplit
      have hlive : entry.isDeleted = false := by
        have hhead := head?_dropWhile_not PropertyMapEntry.isDeleted rest
        rw [hdrop] at hhead
        exact hhead
      subst hsplit
      have hnext : used = (before ++ skipped ++ [entry]) ++ after := by
        rw [hused, append_assoc, append_assoc, singleton_append]
      have hpointer : (before ++ skipped ++ [entry]).length = before.length + skipped.length + 1 := by
        rw [length_append, length_append, length_singleton]
      have hget : t.table[before.length + skipped.length]? = some entry := by
        rw [htable, hnext, ← length_append, append_assoc, append_assoc,
          getElem?_append_right le_rfl, Nat.sub_self]
        rfl
      have hskip : skipDeletedEntries (t.table.drop (before.length + skipped.length + 1))
          (before.length + skipped.length + 1) = .ok ((before ++ skipped ++ [entry]).length +
            (after.takeWhile PropertyMapEntry.isDeleted).length) := by
        rw [htable, hnext, ← hpointer, append_assoc _ after, drop_left, skipDeletedEntries_eq]
      have hne : before.length + skipped.length ≠ t.usedCount := by
        rw [← hlen, hnext, length_append, hpointer]
        omega
      rw [length_append, length_cons] at hsteps
      rw [iterate, if_neg hne]
      simp only [hget, hskip]
      change (t.iterate steps _ >>= fun rest => .ok (entry :: rest)) = _
      rw [ih hnext (by omega), filter_append, hdel, nil_append,
        filter_cons_of_pos (by rw [hlive]; rfl)]
      rfl

omit [DecidableEq K] in
/-- The iteration gives the entries that are not deleted, in the order in which they were added. -/
theorem inOrder_eq : t.inOrder = .ok (used.filter (!·.isDeleted)) := by
  obtain ⟨zeros, htable⟩ := h.exists_table_eq
  have hskip := skipDeletedEntries_eq used zeros 0
  have hlen : used.length < t.table.length + 1 := by
    rw [htable, length_append]
    omega
  have hiterate := h.iterate_eq (nil_append used).symm hlen
  rw [← htable] at hskip
  rw [inOrder, hskip]
  exact hiterate

omit [DecidableEq K] in
theorem exists_live (hent : entry ∈ used.filter (!·.isDeleted)) : ∃ key, entry.key = .live key := by
  obtain ⟨hmem, hlive⟩ := mem_filter.mp hent
  have hnull := h.key_ne_null entry hmem
  cases hkey : entry.key with
  | null => exact absurd hkey hnull
  | deleted =>
    rw [PropertyMapEntry.isDeleted_iff.mpr hkey] at hlive
    exact absurd hlive nofun
  | live key => exact ⟨key, rfl⟩

section

variable (hcap : newCapacity < 2 ^ 30) (hroom : t.keyCount ≤ sizeForCapacity newCapacity >>> 1)

include hcap hroom

/-- The entries that are not deleted are inserted in order into a new table with room for them. -/
theorem reinsertAll : ∃ t', (used.filter (!·.isDeleted)).foldlM (reinsert hash)
        (create (sizeForCapacity newCapacity) t.deletedOffsets) = .ok t' ∧
      t'.Valid hash (used.filter (!·.isDeleted)) ∧
      t'.indexSize = sizeForCapacity newCapacity ∧ t'.deletedCount * 4 < t'.indexSize ∧
      t'.deletedOffsets = t.deletedOffsets := by
  obtain ⟨k, hk, hk', hsize, -⟩ := sizeForCapacity_spec hcap
  rw [hsize] at hroom ⊢
  have hempty : (PropertyTable.create (2 ^ k) t.deletedOffsets).Valid hash [] :=
    of_create hk hk' t.deletedOffsets
  rw [h.keyCount_eq] at hroom
  have hdist := h.distinct.filter (!·.isDeleted)
  obtain ⟨t', hfold, hvalid, hsize', hdel, hoffs⟩ := hempty.foldlM_reinsert
    (fun entry hent => h.exists_live hent) (by rwa [nil_append]) (by rwa [length_nil, zero_add])
  exact ⟨t', hfold, hvalid, hsize', hdel ▸ hvalid.indexSize_pos, hoffs⟩

theorem rehash :
    ∃ t', t.rehash hash newCapacity = .ok t' ∧ t'.Valid hash (used.filter (!·.isDeleted)) ∧
      t'.indexSize = sizeForCapacity newCapacity ∧ t'.deletedCount * 4 < t'.indexSize ∧
      t'.deletedOffsets = t.deletedOffsets := by
  obtain ⟨t', hfold, hspec⟩ := h.reinsertAll hcap hroom
  refine ⟨t', ?_, hspec⟩
  rw [PropertyTable.rehash, h.inOrder_eq]
  exact hfold

end

/-- The table for a new entry has room, and the slot is the end of the search in it. -/
theorem ensureCapacity (hguard : t.canInsert = false → t.keyCount + 1 < 2 ^ 30)
    (habs : ∀ entry ∈ used, entry.key ≠ .live key) (hpath : t.Path hash key steps 0)
    (hsettle : t.deletedCount * 4 < t.indexSize) :
    ∃ t' used' steps', t.ensureCapacity hash key ((hash key + steps) % t.indexSize) =
        .ok (t', (hash key + steps') % t'.indexSize) ∧
      t'.Valid hash used' ∧ t'.usedCount < t'.tableCapacity ∧ t'.Path hash key steps' 0 ∧
      used'.filter (!·.isDeleted) = used.filter (!·.isDeleted) ∧
      (∀ entry ∈ used', entry.key ≠ .live key) ∧ t'.deletedCount * 4 < t'.indexSize ∧
      t'.deletedOffsets = t.deletedOffsets := by
  cases hcan : t.canInsert with
  | true =>
    refine ⟨t, used, steps, if_pos hcan, h, of_decide_eq_true hcan, hpath, rfl, habs, hsettle, rfl⟩
  | false =>
    have hcnt := hguard hcan
    obtain ⟨k, -, -, -, hlt⟩ := sizeForCapacity_spec hcnt
    obtain ⟨t', hrehash, hvalid, hsize, hdel, hoffs⟩ := h.rehash hcnt (by omega)
    have habs' : ∀ entry ∈ used.filter (!·.isDeleted), entry.key ≠ .live key :=
      fun entry hent => habs entry (mem_filter.mp hent).1
    obtain ⟨steps', hfind, hpath'⟩ := hvalid.find_absent habs'
    have hused : t'.usedCount = t.keyCount := by
      rw [← hvalid.length_used, ← h.keyCount_eq]
    refine ⟨t', _, steps', ?_, hvalid, ?_, hpath', ?_, habs', hdel, hoffs⟩
    · rw [PropertyTable.ensureCapacity, hcan, if_neg nofun,
        Nat.mod_eq_of_lt (by omega : t.keyCount + 1 < 2 ^ 32), hrehash]
      change (t'.find hash key >>= fun found => Except.ok (t', found.2)) = _
      rw [hfind]
      rfl
    · rw [hused, tableCapacity, hsize]
      omega
    · simp

/-- Adding an entry whose key is there leaves the table as it is. -/
theorem add_present {existing : PropertyMapEntry K} {place : ℕ}
    (hkey : entry.key = .live key) (hexist : used[place]? = some existing)
    (hkey' : existing.key = .live key) (offset : ℤ) (effect : EffectOnPropertyOffset) :
    t.add hash entry offset effect =
      if existing.offset ≤ offset then .ok (t, false, offset) else .error .releaseAssert := by
  obtain ⟨slot, hfind, hslot⟩ := h.find_live hexist hkey'
  simp only [add, hkey, hfind]
  change (match t.table[place]? with
    | none => _
    | some existing => _) = _
  rw [h.getElem?_of_used hexist]

/-- Adding an entry with a new key puts it behind the others. -/
theorem add_absent (hkey : entry.key = .live key) (habs : ∀ other ∈ used, other.key ≠ .live key)
    (hguard : t.canInsert = false → t.keyCount + 1 < 2 ^ 30)
    (hsettle : t.deletedCount * 4 < t.indexSize) (offset : ℤ)
    (effect : EffectOnPropertyOffset) :
    ∃ t' : PropertyTable K, t.add hash entry offset effect =
        (match effect with
        | .propertyOffsetMayChange => .ok (t', true, max offset entry.offset)
        | .propertyOffsetMustNotChange =>
          if entry.offset ≤ offset then .ok (t', true, offset) else .error .releaseAssert) ∧
      t'.Settled hash (used.filter (!·.isDeleted) ++ [entry]) ∧
      t'.deletedOffsets = t.deletedOffsets := by
  obtain ⟨steps, hfind, hpath⟩ := h.find_absent habs
  obtain ⟨t₁, used₁, steps₁, hensure, hvalid₁, hroom, hpath₁, hfilt, habsent₁, hsettled₁, hoffsets₁⟩ :=
    h.ensureCapacity hguard habs hpath hsettle
  obtain ⟨t', hplace, hvalid', hsize', hdel', hoffs'⟩ :=
    hvalid₁.place hroom hkey habsent₁ hpath₁
  refine ⟨t', ?_, ⟨_, hvalid', by omega, ?_⟩, hoffs'.trans hoffsets₁⟩
  · simp only [add, hkey, hfind]
    change ((t.ensureCapacity hash key _) >>= fun found => (found.1.place found.2 entry) >>= _) = _
    rw [hensure]
    change ((t₁.place _ entry) >>= _) = _
    rw [hplace]
    rfl
  · rw [filter_append, hfilt, filter_singleton, PropertyMapEntry.isDeleted_of_live hkey]
    rfl

end

omit [DecidableEq K] in
theorem markDeleted {before after : List (PropertyMapEntry K)} {slot : ℕ}
    (h : t.Valid hash (before ++ entry :: after)) (hkey : entry.key = .live key)
    (hslot : t.index[slot]? = some (before.length + 1)) :
    (t.markDeleted before.length slot).Valid hash
      (before ++ { entry with key := .deleted } :: after) := by
  have hlive : entry.isDeleted = false := PropertyMapEntry.isDeleted_of_live hkey
  have hcnt : t.keyCount = (before.filter (!·.isDeleted)).length +
      (after.filter (!·.isDeleted)).length + 1 := by
    rw [h.keyCount_eq, filter_append, filter_cons_of_pos (by rw [hlive]; rfl),
      length_append, length_cons]
    omega
  have hused : (t.markDeleted before.length slot).usedCount = t.usedCount := by
    change t.keyCount - 1 + (t.deletedCount + 1) = t.keyCount + t.deletedCount
    omega
  have hset : before ++ { entry with key := .deleted } :: after =
      (before ++ entry :: after).set before.length { entry with key := .deleted } := by
    simp
  obtain ⟨hslotLt, hslotValue⟩ := List.getElem?_eq_some_iff.mp hslot
  constructor
  · exact h.exists_log
  · exact (length_set).trans h.length_index
  · change t.table.modify before.length _ = _ ++ replicate (t.tableCapacity + 1 - _) _
    rw [h.table_eq, hset, length_set, ← hset]
    simp [modify_eq_set_getElem?]
  · rw [hused, ← h.length_used, hset, length_set]
  · rw [hused]
    exact h.used_le
  · intro other hoth
    rw [hset] at hoth
    rcases mem_or_eq_of_mem_set hoth with hoth | rfl
    · exact h.key_ne_null other hoth
    · exact nofun
  · change t.keyCount - 1 = _
    rw [filter_append, filter_cons_of_neg (by exact nofun), length_append]
    omega
  · obtain ⟨hbefore, hafter, hcross⟩ := pairwise_append.mp h.distinct
    rw [pairwise_append]
    refine ⟨hbefore, pairwise_cons.mpr ⟨fun _ _ _ => rfl, (pairwise_cons.mp hafter).2⟩, ?_⟩
    intro first hfst second hsnd hsame
    rcases mem_cons.mp hsnd with rfl | hsnd
    · exact hsame
    · exact hcross first hfst second (mem_cons_of_mem _ hsnd) hsame
  · rw [hused]
    change (t.index.set slot (t.tableCapacity + 1)).countP _ ≤ _
    refine le_trans ?_ h.occupied
    have hpos : 0 < t.index.countP (· ≠ 0) := by
      rw [countP_pos_iff]
      exact ⟨_, mem_of_getElem? hslot, by simp⟩
    rw [countP_set hslotLt, hslotValue, if_pos (by simp), if_pos (by simp)]
    omega
  · intro slot' place hplace
    change (t.index.set slot (t.tableCapacity + 1))[slot']? = _ at hplace
    rw [hset, length_set]
    rw [getElem?_set] at hplace
    split_ifs at hplace with heq
    · exact .inr (Nat.succ.inj (Option.some.inj hplace)).symm
    · exact h.places slot' place hplace
  · intro place other key' hoth hkey'
    have hne : place ≠ before.length := by
      rintro rfl
      rw [getElem?_append_right le_rfl, Nat.sub_self] at hoth
      rw [← Option.some.inj hoth] at hkey'
      cases hkey'
    rw [hset, getElem?_set_ne hne.symm] at hoth
    obtain ⟨steps, hpath⟩ := h.reached place other key' hoth hkey'
    refine ⟨steps, hpath.set rfl rfl (Nat.succ_ne_zero _) ?_⟩
    rw [hslot]
    exact fun heq => hne (Nat.succ.inj (Option.some.inj heq)).symm

/-- Only one entry has the key. -/
theorem filter_key {before after : List (PropertyMapEntry K)}
    (h : t.Valid hash (before ++ entry :: after)) (hkey : entry.key = .live key) :
    ((before ++ { entry with key := .deleted } :: after).filter (!·.isDeleted)) =
      ((before ++ entry :: after).filter (!·.isDeleted)).filter (·.key ≠ .live key) := by
  have hlive : entry.isDeleted = false := PropertyMapEntry.isDeleted_of_live hkey
  obtain ⟨-, hafter, hcross⟩ := pairwise_append.mp h.distinct
  have hoth : ∀ other ∈ before ++ after, other.key ≠ .live key := by
    intro other hmem hsame
    rcases mem_append.mp hmem with hmem | hmem
    · exact ne_live (hcross other hmem entry mem_cons_self) hsame hkey
    · exact ne_live ((pairwise_cons.mp hafter).1 other hmem) hkey hsame
  rw [filter_append, filter_cons_of_neg (by exact nofun), filter_append,
    filter_cons_of_pos (by rw [hlive]; rfl), filter_append, filter_cons_of_neg
      (by rw [hkey]; simp)]
  have hkeep : ∀ part : List (PropertyMapEntry K), part ⊆ before ++ after →
      (part.filter (!·.isDeleted)).filter (·.key ≠ .live key) = part.filter (!·.isDeleted) := by
    intro part hpart
    rw [filter_eq_self]
    intro other hmem
    exact decide_eq_true (hoth other (hpart (mem_filter.mp hmem).1))
  rw [hkeep before (subset_append_left _ _), hkeep after (subset_append_right _ _)]

/-- Removing a key leaves the other entries in their order. -/
theorem remove_present (h : t.Valid hash used) (hent : entry ∈ used)
    (hkey : entry.key = .live key) (hsettle : t.deletedCount * 4 < t.indexSize) :
    ∃ t', t.remove hash key = .ok t' ∧
      t'.Settled hash ((used.filter (!·.isDeleted)).filter (·.key ≠ .live key)) ∧
      t'.deletedOffsets = t.deletedOffsets := by
  obtain ⟨before, after, rfl⟩ := append_of_mem hent
  have hget : (before ++ entry :: after)[before.length]? = some entry := by
    rw [getElem?_append_right le_rfl, Nat.sub_self, getElem?_cons_zero]
  obtain ⟨slot, hfind, hslot⟩ := h.find_live hget hkey
  have hmarked := h.markDeleted hkey hslot
  have hsize : t.indexSize ≤ 2 ^ 31 := by
    obtain ⟨k, -, hk, hpow⟩ := h.exists_log
    exact hpow ▸ Nat.pow_le_pow_right Nat.two_pos hk
  have hrem : t.remove hash key =
      if (t.deletedCount + 1) * 4 % 2 ^ 32 ≥ t.indexSize then
        (t.markDeleted before.length slot).rehash hash (t.keyCount - 1)
      else .ok (t.markDeleted before.length slot) := by
    rw [remove, hfind]
    rfl
  rw [Nat.mod_eq_of_lt (by omega)] at hrem
  by_cases hmany : (t.deletedCount + 1) * 4 ≥ t.indexSize
  · have hcnt : t.keyCount - 1 < 2 ^ 30 := by
      have := h.two_mul_tableCapacity
      have := h.used_le
      rw [usedCount] at this
      omega
    obtain ⟨k, -, -, -, hlt⟩ := sizeForCapacity_spec hcnt
    obtain ⟨t', hrehash, hvalid, -, hdel, hoffs⟩ := hmarked.rehash hcnt (le_of_lt hlt)
    refine ⟨t', hrem.trans ((if_pos hmany).trans hrehash), ⟨_, hvalid, hdel, ?_⟩, hoffs⟩
    rw [← h.filter_key hkey]
    simp
  · rw [if_neg hmany] at hrem
    exact ⟨_, hrem, ⟨_, hmarked, Nat.lt_of_not_le hmany, (h.filter_key hkey).symm⟩, rfl⟩

end Search

end Valid

end Validity

end PropertyTable

end WebKit.Runtime
