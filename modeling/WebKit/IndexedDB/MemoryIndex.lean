import WebKit.Foundation.HashMaps

/-!
An index of an in-memory object store. Each index key leads to the primary keys
of the records that carry it: to a single one in a unique index, to an ordered
set otherwise. The keys of the hash map are kept a second time in an ordered set.

Keys are an arbitrary linear order. What the bindings make of a stored value, and
the array key of several keys, are parameters.
-/

namespace WebKit.IndexedDB

open List HashMaps
open Option hiding any_eq_true mem_map mem_toFinset

inductive IDBError where
  | constraintError
  deriving DecidableEq, Repr

abbrev ThreadSafeDataBuffer := Option (List UInt8)

inductive JSValue (Value : Type*) where
  | undefined
  | null
  | value (v : Value)

namespace JSValue

def isUndefinedOrNull {Value : Type*} : JSValue Value → Bool
  | undefined => true
  | null => true
  | value _ => false

end JSValue

structure IDBIndexInfo (KeyPath : Type*) where
  identifier : ℕ
  objectStoreIdentifier : ℕ
  name : String
  keyPath : KeyPath
  unique : Bool
  multiEntry : Bool

structure Bindings (Key KeyPath Value : Type*) where
  isValid : Key → Bool
  setArrayValue : List Key → Key
  deserialize : List UInt8 → JSValue Value
  createKeyPathArray : IDBIndexInfo KeyPath → JSValue Value → List Key

variable {Key KeyPath Value : Type*}

namespace Bindings

variable (bindings : Bindings Key KeyPath Value)

def deserializeIDBValueToJSValue : ThreadSafeDataBuffer → JSValue Value
  | none => .undefined
  | some [] => .null
  | some bytes => bindings.deserialize bytes

def isUndefinedOrNull (value : ThreadSafeDataBuffer) : Bool :=
  (bindings.deserializeIDBValueToJSValue value).isUndefinedOrNull

end Bindings

structure IndexKey (Key : Type*) where
  keys : List Key

namespace IndexKey

def isNull (indexKey : IndexKey Key) : Bool := indexKey.keys.isEmpty

def asOneKey (bindings : Bindings Key KeyPath Value) (indexKey : IndexKey Key) : Key :=
  match indexKey.keys with
  | [key] => key
  | keys => bindings.setArrayValue keys

def multiEntryLoop [DecidableEq Key] (bindings : Bindings Key KeyPath Value) (multiEntry : List Key) :
    List Key → List Key
  | [] => multiEntry
  | key :: keys =>
    if bindings.isValid key then
      if key ∈ multiEntry then multiEntryLoop bindings multiEntry keys
      else multiEntryLoop bindings (multiEntry ++ [key]) keys
    else multiEntryLoop bindings multiEntry keys

def multiEntry [DecidableEq Key] (bindings : Bindings Key KeyPath Value) (indexKey : IndexKey Key) :
    List Key :=
  multiEntryLoop bindings [] indexKey.keys

end IndexKey

namespace IndexKey

variable [DecidableEq Key] (bindings : Bindings Key KeyPath Value)

theorem nodup_multiEntryLoop (keys multiEntry : List Key) (h : multiEntry.Nodup) :
    (multiEntryLoop bindings multiEntry keys).Nodup := by
  induction keys generalizing multiEntry with
  | nil => exact h
  | cons key keys ih =>
    unfold multiEntryLoop
    split_ifs with hvalid hmem
    · exact ih multiEntry h
    · apply ih
      rw [nodup_append_comm]
      exact nodup_cons.mpr ⟨hmem, h⟩
    · exact ih multiEntry h

def recordKeys (info : IDBIndexInfo KeyPath) (indexKey : IndexKey Key) : List Key :=
  if !info.multiEntry then [indexKey.asOneKey bindings] else indexKey.multiEntry bindings

theorem nodup_recordKeys (info : IDBIndexInfo KeyPath) (indexKey : IndexKey Key) :
    (indexKey.recordKeys bindings info).Nodup := by
  unfold recordKeys
  split_ifs
  · exact nodup_singleton _
  · exact nodup_multiEntryLoop bindings _ [] nodup_nil

end IndexKey

def generateIndexKeyForValue (bindings : Bindings Key KeyPath Value) (info : IDBIndexInfo KeyPath)
    (value : JSValue Value) : IndexKey Key :=
  ⟨bindings.createKeyPathArray info value⟩

inductive IndexValueEntry (Key : Type*) : Bool → Type _ where
  | key (key : Option Key) : IndexValueEntry Key true
  | orderedKeys (keys : Finset Key) : IndexValueEntry Key false

namespace IndexValueEntry

variable {unique : Bool}

def create : (unique : Bool) → IndexValueEntry Key unique
  | true => key none
  | false => orderedKeys ∅

def getCount : IndexValueEntry Key unique → ℕ
  | key k => if k.isSome then 1 else 0
  | orderedKeys keys => keys.card

def keys : IndexValueEntry Key unique → Finset Key
  | key k => k.toFinset
  | orderedKeys keys => keys

@[simp]
theorem keys_create : (create unique : IndexValueEntry Key unique).keys = ∅ := by
  cases unique <;> rfl

@[simp]
theorem getCount_eq_card (entry : IndexValueEntry Key unique) :
    entry.getCount = entry.keys.card := by
  cases entry with
  | key k => cases k <;> rfl
  | orderedKeys keys => rfl

theorem eq_of_mem_keys (entry : IndexValueEntry Key unique) (h : unique) {a b : Key}
    (ha : a ∈ entry.keys) (hb : b ∈ entry.keys) : a = b := by
  cases entry with
  | key k =>
    rw [keys, Option.mem_toFinset] at ha hb
    exact some.inj (ha.symm.trans hb)
  | orderedKeys keys => cases h

variable [DecidableEq Key]

def addKey : IndexValueEntry Key unique → Key → IndexValueEntry Key unique
  | key _, newKey => key (some newKey)
  | orderedKeys keys, newKey => orderedKeys (insert newKey keys)

def removeKey : IndexValueEntry Key unique → Key → IndexValueEntry Key unique × Bool
  | key k, oldKey => if k = some oldKey then (key none, true) else (key k, false)
  | orderedKeys keys, oldKey => (orderedKeys (keys.erase oldKey), decide (oldKey ∈ keys))

theorem keys_addKey (entry : IndexValueEntry Key unique) (newKey : Key)
    (h : unique → entry.keys = ∅) :
    (entry.addKey newKey).keys = insert newKey entry.keys := by
  cases entry with
  | key k =>
    rw [h rfl]
    rfl
  | orderedKeys keys => rfl

@[simp]
theorem keys_removeKey (entry : IndexValueEntry Key unique) (oldKey : Key) :
    (entry.removeKey oldKey).1.keys = entry.keys.erase oldKey := by
  cases entry with
  | key k =>
    cases k with
    | none => simp [removeKey, keys]
    | some k =>
      by_cases h : k = oldKey
      · simp [removeKey, keys, h]
      · have hmem : oldKey ∉ ({k} : Finset Key) := by simpa using fun heq => h heq.symm
        simp [removeKey, keys, h, Finset.erase_eq_of_notMem hmem]
  | orderedKeys keys => rfl

end IndexValueEntry

structure IndexValueStore (Key : Type*) where
  unique : Bool
  records : HashMap Key (IndexValueEntry Key unique)
  orderedKeys : Finset Key

namespace IndexValueStore

variable [DecidableEq Key]

def create (unique : Bool) : IndexValueStore Key := ⟨unique, ∅, ∅⟩

variable (store : IndexValueStore Key)

def contains (key : Key) : Bool := (store.records.lookup key).isSome

def addRecord (indexKey valueKey : Key) : IndexValueStore Key × Option IDBError :=
  match store.records.lookup indexKey with
  | some entry =>
    if store.unique then (store, some .constraintError)
    else
      ({ store with
          records := store.records.insert indexKey (entry.addKey valueKey)
          orderedKeys := insert indexKey store.orderedKeys }, none)
  | none =>
    ({ store with
        records := store.records.insert indexKey ((IndexValueEntry.create store.unique).addKey valueKey)
        orderedKeys := insert indexKey store.orderedKeys }, none)

/-- Undo an `addRecord`. The whole entry goes once the key was found in it, and the ordered
keys stay as they are. -/
def removeRecord (indexKey valueKey : Key) : IndexValueStore Key :=
  match store.records.lookup indexKey with
  | none => store
  | some entry =>
    if (entry.removeKey valueKey).2 then { store with records := store.records.erase indexKey }
    else { store with records := store.records.insert indexKey (entry.removeKey valueKey).1 }

def removeEntriesWithValueKey (valueKey : Key) : IndexValueStore Key :=
  let records := mapValues (fun _ entry => (entry.removeKey valueKey).1) store.records
  let entryKeysToRemove := ((pairs records).filter fun entry => entry.2.getCount = 0).map Prod.fst
  { store with
    records := retain (fun entry => entry.getCount ≠ 0) records
    orderedKeys := store.orderedKeys.filter fun key => key ∉ entryKeysToRemove }

def valueKeys (indexKey : Key) : Finset Key :=
  (store.records.lookup indexKey).elim ∅ IndexValueEntry.keys

structure WellFormed (store : IndexValueStore Key) : Prop where
  ordered : ∀ key, key ∈ store.orderedKeys ↔ key ∈ store.records
  nonempty : ∀ key entry, store.records.lookup key = some entry → entry.keys.Nonempty

theorem wellFormed_create (unique : Bool) : (create unique : IndexValueStore Key).WellFormed :=
  ⟨fun key => iff_of_false (Finset.notMem_empty key) (AList.notMem_empty key),
    fun key entry h => by simp [create] at h⟩

@[simp]
theorem valueKeys_create (unique : Bool) (key : Key) : (create unique).valueKeys key = ∅ := by
  simp [create, valueKeys]

def entries (indexKey : Key) : Option (Finset Key) :=
  (store.records.lookup indexKey).map IndexValueEntry.keys

variable (store : IndexValueStore Key)

theorem valueKeys_eq (key : Key) : store.valueKeys key = (store.entries key).getD ∅ := by
  rw [valueKeys, entries]
  cases store.records.lookup key <;> rfl

theorem contains_eq (key : Key) : store.contains key = (store.entries key).isSome := by
  rw [contains, entries, isSome_map]

theorem mem_records_iff (key : Key) : key ∈ store.records ↔ (store.entries key).isSome := by
  rw [← AList.lookup_isSome, entries, isSome_map]

variable {store}

theorem wellFormed_iff :
    store.WellFormed ↔ (∀ key, key ∈ store.orderedKeys ↔ (store.entries key).isSome) ∧
      ∀ key, store.entries key ≠ some ∅ := by
  constructor
  · rintro ⟨hord, hne⟩
    refine ⟨fun key => (hord key).trans (mem_records_iff store key), fun key h => ?_⟩
    obtain ⟨entry, hget, hempty⟩ := map_eq_some_iff.mp h
    exact (hne key entry hget).ne_empty hempty
  · rintro ⟨hord, hne⟩
    refine ⟨fun key => (hord key).trans (mem_records_iff store key).symm, ?_⟩
    intro key entry hget
    apply Finset.nonempty_iff_ne_empty.mpr
    intro hempty
    exact hne key (map_eq_some_iff.mpr ⟨entry, hget, hempty⟩)

theorem WellFormed.contains_iff (h : store.WellFormed) (key : Key) :
    store.contains key ↔ (store.valueKeys key).Nonempty := by
  have hne := (wellFormed_iff.mp h).2 key
  rw [contains_eq, valueKeys_eq]
  cases hent : store.entries key with
  | none => simp
  | some keys =>
    rw [hent] at hne
    simpa [Finset.nonempty_iff_ne_empty] using hne

theorem WellFormed.mem_orderedKeys_iff (h : store.WellFormed) (key : Key) :
    key ∈ store.orderedKeys ↔ (store.valueKeys key).Nonempty := by
  rw [(wellFormed_iff.mp h).1, ← contains_eq, h.contains_iff]

variable (store) in
/-- Only a unique store refuses a record, when the index key is taken. -/
theorem addRecord_error_iff (indexKey valueKey : Key) :
    (store.addRecord indexKey valueKey).2 ≠ none ↔
      store.unique ∧ store.contains indexKey := by
  rw [contains, addRecord]
  cases store.records.lookup indexKey with
  | none => simp
  | some entry => by_cases huniq : store.unique = true <;> simp [huniq]

theorem addRecord_of_error {indexKey valueKey : Key}
    (herr : (store.addRecord indexKey valueKey).2 ≠ none) :
    (store.addRecord indexKey valueKey).1 = store := by
  unfold addRecord at herr ⊢
  cases hget : store.records.lookup indexKey with
  | none => simp [hget] at herr
  | some entry =>
    by_cases huniq : store.unique
    · simp [huniq]
    · simp [hget, huniq] at herr

/-- An accepted record is stored in the entry of its index key. -/
theorem addRecord_of_ok {indexKey valueKey : Key}
    (hok : (store.addRecord indexKey valueKey).2 = none) :
    (store.addRecord indexKey valueKey).1.unique = store.unique ∧
      (store.addRecord indexKey valueKey).1.orderedKeys = insert indexKey store.orderedKeys ∧
      ∀ key, (store.addRecord indexKey valueKey).1.entries key =
        if key = indexKey then some (insert valueKey (store.valueKeys indexKey))
        else store.entries key := by
  unfold addRecord at hok ⊢
  cases hget : store.records.lookup indexKey with
  | none =>
    refine ⟨rfl, rfl, fun key => ?_⟩
    simp only [entries, lookup_insert_eq]
    split_ifs with hkey
    · rw [map_some, IndexValueEntry.keys_addKey _ _ fun _ => IndexValueEntry.keys_create,
        IndexValueEntry.keys_create, valueKeys, hget, elim_none]
    · rfl
  | some entry =>
    by_cases huniq : store.unique
    · simp [hget, huniq] at hok
    · simp only [if_neg huniq]
      refine ⟨trivial, trivial, fun key => ?_⟩
      simp only [entries, lookup_insert_eq]
      split_ifs with hkey
      · rw [map_some, IndexValueEntry.keys_addKey _ _ fun h => absurd h huniq, valueKeys,
          hget, elim_some]
      · rfl

/-- Adding one record under several keys that a unique store does not hold yet. -/
theorem foldl_addRecord {keys : List Key} (hnodup : keys.Nodup) (valueKey : Key)
    (hfree : store.unique → ∀ key ∈ keys, store.contains key = false) : let result := keys.foldl (fun store key => (store.addRecord key valueKey).1) store
    result.unique = store.unique ∧ result.orderedKeys = store.orderedKeys ∪ keys.toFinset ∧
      ∀ key, result.entries key =
        if key ∈ keys then some (insert valueKey (store.valueKeys key)) else store.entries key := by
  induction keys generalizing store with
  | nil => exact ⟨rfl, by simp, fun key => by simp⟩
  | cons first rest ih =>
    obtain ⟨hfst, hrest⟩ := nodup_cons.mp hnodup
    have hok : (store.addRecord first valueKey).2 = none := by
      by_contra herr
      obtain ⟨huniq, htaken⟩ := (store.addRecord_error_iff first valueKey).mp herr
      rw [hfree huniq first mem_cons_self] at htaken
      cases htaken
    obtain ⟨huniq, hord, hents⟩ := addRecord_of_ok hok
    have hoth : ∀ key ∈ rest, (store.addRecord first valueKey).1.entries key = store.entries key := by
      intro key hkey
      rw [hents, if_neg (ne_of_mem_of_not_mem hkey hfst)]
    obtain ⟨huniq', hord', hents'⟩ := @ih (store.addRecord first valueKey).1 hrest <| by
      intro h key hkey
      rw [contains_eq, hoth key hkey, ← contains_eq]
      exact hfree (huniq ▸ h) key (mem_cons_of_mem _ hkey)
    refine ⟨huniq'.trans huniq, hord'.trans ?_, fun key => (hents' key).trans ?_⟩
    · rw [hord, toFinset_cons, Finset.insert_union, Finset.union_insert]
    · by_cases hkey : key ∈ rest
      · rw [if_pos hkey, if_pos (mem_cons_of_mem _ hkey), valueKeys_eq, hoth key hkey,
          ← valueKeys_eq]
      · rw [if_neg hkey, hents]
        by_cases hsame : key = first
        · simp [hsame]
        · simp [hsame, hkey]

theorem WellFormed.foldl_addRecord (h : store.WellFormed) {keys : List Key} (hnodup : keys.Nodup)
    (valueKey : Key) (hfree : store.unique → ∀ key ∈ keys, store.contains key = false) :
    (keys.foldl (fun store key => (store.addRecord key valueKey).1) store).WellFormed := by
  obtain ⟨-, hord, hents⟩ := IndexValueStore.foldl_addRecord hnodup valueKey hfree
  rw [wellFormed_iff] at h ⊢
  refine ⟨fun key => ?_, fun key => ?_⟩
  · rw [hord, hents, Finset.mem_union, mem_toFinset, h.1 key]
    split_ifs with hkey <;> simp [hkey]
  · rw [hents]
    split_ifs
    · exact fun heq => Finset.insert_ne_empty _ _ (some.inj heq)
    · exact h.2 key

variable (store)

theorem entries_removeEntriesWithValueKey (valueKey key : Key) :
    (store.removeEntriesWithValueKey valueKey).entries key =
      ((store.entries key).map fun keys => keys.erase valueKey).filter fun keys => keys ≠ ∅ := by
  simp only [entries, removeEntriesWithValueKey, lookup_retain, lookup_mapValues]
  cases store.records.lookup key with
  | none => rfl
  | some entry =>
    by_cases hempty : entry.keys.erase valueKey = ∅ <;> simp [Option.filter, hempty]

theorem contains_removeEntriesWithValueKey (valueKey key : Key) :
    (store.removeEntriesWithValueKey valueKey).contains key ↔
      ((store.valueKeys key).erase valueKey).Nonempty := by
  rw [contains_eq, entries_removeEntriesWithValueKey, valueKeys_eq]
  cases store.entries key with
  | none => simp
  | some keys => simp [Option.filter, Finset.nonempty_iff_ne_empty]

theorem valueKeys_removeEntriesWithValueKey (valueKey key : Key) :
    (store.removeEntriesWithValueKey valueKey).valueKeys key = (store.valueKeys key).erase valueKey := by
  rw [valueKeys_eq, entries_removeEntriesWithValueKey, valueKeys_eq]
  cases store.entries key with
  | none => simp
  | some keys =>
    by_cases hempty : keys.erase valueKey = ∅ <;> simp [Option.filter, hempty]

variable {store}

theorem WellFormed.removeEntriesWithValueKey (h : store.WellFormed) (valueKey : Key) :
    (store.removeEntriesWithValueKey valueKey).WellFormed := by
  obtain ⟨unique, records, orderedKeys⟩ := store
  dsimp only [IndexValueStore.removeEntriesWithValueKey]
  refine ⟨fun key => ?_, fun key entry hent => ?_⟩
  · have hord : key ∈ orderedKeys ↔ (records.lookup key).isSome :=
      (h.ordered key).trans AList.lookup_isSome.symm
    rw [← AList.lookup_isSome, lookup_retain, lookup_mapValues, Finset.mem_filter, hord]
    simp only [mem_map, mem_filter, Prod.exists, mem_pairs, lookup_mapValues]
    cases hent : records.lookup key with
    | none => simp
    | some entry => simp [Option.filter, hent]
  · rw [lookup_retain, filter_eq_some_iff] at hent
    exact Finset.card_ne_zero.mp (by simpa using hent.2)

end IndexValueStore

structure MemoryIndex (Key KeyPath : Type*) where
  info : IDBIndexInfo KeyPath
  records : Option (IndexValueStore Key)

namespace MemoryIndex

variable [DecidableEq Key] (info : IDBIndexInfo KeyPath)

def create : MemoryIndex Key KeyPath := ⟨info, none⟩

def valueStore (index : MemoryIndex Key KeyPath) : IndexValueStore Key :=
  index.records.getD (IndexValueStore.create index.info.unique)

variable (bindings : Bindings Key KeyPath Value)

def putIndexKey (index : MemoryIndex Key KeyPath) (valueKey : Key) (indexKey : IndexKey Key) :
    MemoryIndex Key KeyPath × Option IDBError :=
  if !index.info.multiEntry then
    ({ index with
        records := some (index.valueStore.addRecord (indexKey.asOneKey bindings) valueKey).1 },
      (index.valueStore.addRecord (indexKey.asOneKey bindings) valueKey).2)
  else if index.info.unique &&
      (indexKey.multiEntry bindings).any index.valueStore.contains then
    ({ index with records := some index.valueStore }, some .constraintError)
  else
    ({ index with
        records := some ((indexKey.multiEntry bindings).foldl
          (fun store key => (store.addRecord key valueKey).1) index.valueStore) }, none)

def removeRecord (index : MemoryIndex Key KeyPath) (valueKey : Key) (indexKey : IndexKey Key) :
    MemoryIndex Key KeyPath :=
  if !index.info.multiEntry then
    { index with
      records := index.records.map fun store =>
        store.removeRecord (indexKey.asOneKey bindings) valueKey }
  else
    { index with
      records := index.records.map fun store =>
        (indexKey.multiEntry bindings).foldl (fun store key => store.removeRecord key valueKey) store }

def removeEntriesWithValueKey (index : MemoryIndex Key KeyPath) (valueKey : Key) :
    MemoryIndex Key KeyPath :=
  { index with records := index.records.map fun store => store.removeEntriesWithValueKey valueKey }

def valueKeys (index : MemoryIndex Key KeyPath) (indexKey : Key) : Finset Key :=
  index.valueStore.valueKeys indexKey

/-- The value store has the uniqueness of the index, its ordered keys are the keys of its map,
and no entry is empty. -/
structure WellFormed (index : MemoryIndex Key KeyPath) : Prop where
  unique : index.valueStore.unique = index.info.unique
  records : index.valueStore.WellFormed

theorem wellFormed_create : (create info : MemoryIndex Key KeyPath).WellFormed :=
  ⟨rfl, IndexValueStore.wellFormed_create _⟩

@[simp]
theorem valueKeys_create (key : Key) : (create info : MemoryIndex Key KeyPath).valueKeys key = ∅ :=
  IndexValueStore.valueKeys_create _ key

@[simp]
theorem info_putIndexKey (index : MemoryIndex Key KeyPath) (valueKey : Key)
    (indexKey : IndexKey Key) :
    (index.putIndexKey bindings valueKey indexKey).1.info = index.info := by
  unfold putIndexKey
  split_ifs <;> rfl

variable {index : MemoryIndex Key KeyPath} {bindings : Bindings Key KeyPath Value} {valueKey : Key}
  {indexKey : IndexKey Key}

/-- A unique index holds at most one primary key under each index key. -/
theorem WellFormed.eq_of_mem_valueKeys (h : index.WellFormed) (huniq : index.info.unique)
    {indexKey key key' : Key} (hkey : key ∈ index.valueKeys indexKey)
    (hkey' : key' ∈ index.valueKeys indexKey) : key = key' := by
  rw [valueKeys, IndexValueStore.valueKeys] at hkey hkey'
  cases hent : index.valueStore.records.lookup indexKey with
  | none =>
    rw [hent] at hkey
    cases hkey
  | some entry =>
    rw [hent] at hkey hkey'
    exact entry.eq_of_mem_keys (h.unique.trans huniq) hkey hkey'

/-- Only a unique index refuses a value, when one of its keys is taken. -/
theorem putIndexKey_error_iff (huniq : index.valueStore.unique = index.info.unique)
    (bindings : Bindings Key KeyPath Value) (valueKey : Key) (indexKey : IndexKey Key) :
    (index.putIndexKey bindings valueKey indexKey).2 ≠ none ↔ index.info.unique ∧
      ∃ key ∈ indexKey.recordKeys bindings index.info, index.valueStore.contains key := by
  unfold putIndexKey IndexKey.recordKeys
  by_cases hmulti : index.info.multiEntry
  · simp only [hmulti, Bool.not_true, Bool.false_eq_true, if_false, ← any_eq_true,
      ← Bool.and_eq_true]
    split_ifs with htaken <;> simpa using htaken
  · simp only [hmulti, Bool.not_false, if_true]
    rw [IndexValueStore.addRecord_error_iff, huniq]
    simp

theorem WellFormed.putIndexKey_error_iff (h : index.WellFormed)
    (bindings : Bindings Key KeyPath Value) (valueKey : Key) (indexKey : IndexKey Key) :
    (index.putIndexKey bindings valueKey indexKey).2 ≠ none ↔ index.info.unique ∧
      ∃ key ∈ indexKey.recordKeys bindings index.info, (index.valueKeys key).Nonempty := by
  simp only [MemoryIndex.putIndexKey_error_iff h.unique, h.records.contains_iff, valueKeys]

/-- An accepted value is stored under each of its keys. -/
theorem putIndexKey_of_ok (huniq : index.valueStore.unique = index.info.unique)
    (hok : (index.putIndexKey bindings valueKey indexKey).2 = none) :
    (index.putIndexKey bindings valueKey indexKey).1 = { index with
      records := some ((indexKey.recordKeys bindings index.info).foldl
        (fun store key => (store.addRecord key valueKey).1) index.valueStore) } ∧
    (index.valueStore.unique → ∀ key ∈ indexKey.recordKeys bindings index.info,
      index.valueStore.contains key = false) := by
  constructor
  · unfold putIndexKey IndexKey.recordKeys at *
    split_ifs with hsingle htaken
    · rfl
    · rw [if_neg hsingle, if_pos htaken] at hok
      cases hok
    · rfl
  · intro h key hkey
    by_contra htaken
    exact (putIndexKey_error_iff huniq bindings valueKey indexKey).mpr
      ⟨huniq ▸ h, key, hkey, Bool.not_eq_false _ ▸ htaken⟩ hok

/-- An accepted value is filed under each of its keys. -/
theorem WellFormed.putIndexKey_of_ok (h : index.WellFormed)
    (hok : (index.putIndexKey bindings valueKey indexKey).2 = none) :
    (index.putIndexKey bindings valueKey indexKey).1.WellFormed ∧
      ∀ key, (index.putIndexKey bindings valueKey indexKey).1.valueKeys key =
        if key ∈ indexKey.recordKeys bindings index.info then insert valueKey (index.valueKeys key)
        else index.valueKeys key := by
  obtain ⟨heq, hfree⟩ := MemoryIndex.putIndexKey_of_ok h.unique hok
  have hnodup := IndexKey.nodup_recordKeys bindings index.info indexKey
  obtain ⟨huniq, -, hents⟩ := IndexValueStore.foldl_addRecord hnodup valueKey hfree
  rw [heq]
  refine ⟨⟨huniq.trans h.unique, h.records.foldl_addRecord hnodup valueKey hfree⟩, fun key => ?_⟩
  simp only [valueKeys, valueStore, getD_some, IndexValueStore.valueKeys_eq _ key] at hents ⊢
  rw [hents]
  split_ifs
  · rw [getD_some, IndexValueStore.valueKeys_eq]
  · rfl

/-- A refused value only makes the value store. -/
theorem putIndexKey_of_error (herr : (index.putIndexKey bindings valueKey indexKey).2 ≠ none) :
    (index.putIndexKey bindings valueKey indexKey).1 =
      { index with records := some index.valueStore } := by
  unfold putIndexKey at *
  split_ifs with hsingle htaken
  · rw [if_pos hsingle] at herr
    rw [IndexValueStore.addRecord_of_error herr]
  · rfl
  · rw [if_neg hsingle, if_neg htaken] at herr
    exact absurd rfl herr

theorem WellFormed.removeEntriesWithValueKey (h : index.WellFormed) (valueKey : Key) :
    (index.removeEntriesWithValueKey valueKey).WellFormed := by
  obtain ⟨info, records⟩ := index
  cases records with
  | none => exact h
  | some store => exact ⟨h.unique, h.records.removeEntriesWithValueKey valueKey⟩

variable (index : MemoryIndex Key KeyPath)

theorem valueKeys_removeEntriesWithValueKey (valueKey key : Key) :
    (index.removeEntriesWithValueKey valueKey).valueKeys key = (index.valueKeys key).erase valueKey
    := by
  obtain ⟨info, records⟩ := index
  cases records with
  | none => exact (IndexValueStore.valueKeys_create _ key).trans (by
      rw [valueKeys, valueStore, getD_none, IndexValueStore.valueKeys_create, Finset.erase_empty])
  | some store => exact store.valueKeys_removeEntriesWithValueKey valueKey key

def clearIndexValueStore : MemoryIndex Key KeyPath :=
  { index with records := none }

def replaceIndexValueStore (valueStore : Option (IndexValueStore Key)) : MemoryIndex Key KeyPath :=
  { index with records := valueStore }

end MemoryIndex

end WebKit.IndexedDB
