import WebKit.Foundation.Runs
import WebKit.IndexedDB.IDBKeyData
import WebKit.IndexedDB.MemoryIndex

/-!
An in-memory object store inside a write transaction. The records are kept in a
hash map, their keys a second time in an ordered set, and every index on its own.
The transaction remembers what an abort has to put back.

Against the plain map of records, the store is right as long as it is not cleared
twice while it holds records, and as long as no index is created over records
that follow an undefined or null one in the hash map. The second clearing of a
transaction is not remembered, and its records are then not taken out either;
filling a new index stops at the first value that no index can hold.
-/

namespace WebKit.IndexedDB

open Option List HashMaps Runs
open Function (update update_apply)
open Finset (mem_filter)

variable {Key KeyPath Value : Type*} {key : Key}

def indexKeys [DecidableEq Key] (bindings : Bindings Key KeyPath Value)
    (info : IDBIndexInfo KeyPath) (value : ThreadSafeDataBuffer) : List Key :=
  if bindings.isUndefinedOrNull value then []
  else
    let indexKey :=
      generateIndexKeyForValue bindings info (bindings.deserializeIDBValueToJSValue value)
    if indexKey.isNull then [] else indexKey.recordKeys bindings info

structure IDBKeyRangeData (Key : Type*) where
  isNull : Bool
  lowerKey : Option Key
  upperKey : Option Key
  lowerOpen : Bool
  upperOpen : Bool

namespace IDBKeyRangeData

variable [LinearOrder Key]

def isExactlyOneKey (bindings : Bindings Key KeyPath Value) (range : IDBKeyRangeData Key) : Bool :=
  !(range.isNull || range.lowerOpen || range.upperOpen || !range.upperKey.any bindings.isValid ||
    !range.lowerKey.any bindings.isValid) && decide (range.lowerKey = range.upperKey)

def AboveLower (range : IDBKeyRangeData Key) (key : Key) : Prop :=
  ∀ lower ∈ range.lowerKey, lower ≤ key ∧ (range.lowerOpen = true → lower ≠ key)

def BelowUpper (range : IDBKeyRangeData Key) (key : Key) : Prop :=
  ∀ upper ∈ range.upperKey, key ≤ upper ∧ (range.upperOpen = true → key ≠ upper)

instance (range : IDBKeyRangeData Key) (key : Key) : Decidable (range.AboveLower key) :=
  inferInstanceAs (Decidable (∀ lower ∈ range.lowerKey,
    lower ≤ key ∧ (range.lowerOpen = true → lower ≠ key)))

instance (range : IDBKeyRangeData Key) (key : Key) : Decidable (range.BelowUpper key) :=
  inferInstanceAs (Decidable (∀ upper ∈ range.upperKey,
    key ≤ upper ∧ (range.upperOpen = true → key ≠ upper)))

variable {range : IDBKeyRangeData Key}

theorem isExactlyOneKey_iff {bindings : Bindings Key KeyPath Value}
    (h : range.isExactlyOneKey bindings) :
    ∃ key, range.lowerKey = some key ∧ range.upperKey = some key ∧ range.lowerOpen = false ∧
      range.upperOpen = false := by
  simp only [isExactlyOneKey, Bool.and_eq_true, Bool.not_eq_true', Bool.or_eq_false_iff,
    Bool.not_eq_false', decide_eq_true_eq] at h
  obtain ⟨⟨⟨⟨⟨-, hlowerOpen⟩, hupperOpen⟩, -⟩, hlow⟩, heq⟩ := h
  obtain ⟨key, hkey, -⟩ := (any_eq_true _ _).mp hlow
  exact ⟨key, hkey, heq ▸ hkey, hlowerOpen, hupperOpen⟩

/-- A range of exactly one key contains that key only. -/
theorem inRange_iff_of_isExactlyOneKey {bindings : Bindings Key KeyPath Value}
    (h : range.isExactlyOneKey bindings) (hkey : range.lowerKey = some key)
    (other : Key) : range.AboveLower other ∧ range.BelowUpper other ↔ other = key := by
  obtain ⟨key', hlow, hup, hlowerOpen, hupperOpen⟩ := isExactlyOneKey_iff h
  cases hlow.symm.trans hkey
  simp only [AboveLower, BelowUpper, hlow, hup, hlowerOpen, hupperOpen, mem_some_iff,
    forall_eq', Bool.false_eq_true, false_implies, and_true]
  exact ⟨fun hle => le_antisymm hle.2 hle.1, fun heq => ⟨heq.ge, heq.le⟩⟩

/-- A key above another one that satisfies the lower bound satisfies it too. -/
theorem AboveLower.trans_lt {other : Key} (h : range.AboveLower key) (hlt : key ≤ other)
    (hne : key ≠ other) : range.AboveLower other := by
  intro lower hlow
  have hle := (h lower hlow).1
  exact ⟨hle.trans hlt, fun _ heq => hne (le_antisymm hlt (heq ▸ hle))⟩

end IDBKeyRangeData

abbrev IndexRef := ℕ

structure MemoryObjectStore (Key KeyPath : Type*) where
  identifier : ℕ
  name : String
  keyGeneratorValue : ℕ
  keyValueStore : Option (HashMap Key ThreadSafeDataBuffer)
  orderedKeys : Option (Finset Key)
  /-- The registered indexes. -/
  indexes : HashMap IndexRef (MemoryIndex Key KeyPath)

structure StoreTransaction (Key : Type*) where
  isVersionChange : Bool
  isAborting : Bool
  originalKeyGenerator : ℕ
  originalValues : Option (HashMap Key ThreadSafeDataBuffer)
  clearedKeyValueMap : Option (Option (HashMap Key ThreadSafeDataBuffer))
  clearedOrderedKeys : Option (Option (Finset Key))
  clearedIndexValueStores : HashMap IndexRef (Option (IndexValueStore Key))

namespace StoreTransaction

variable [DecidableEq Key]

def start (isVersionChange : Bool) (keyGeneratorValue : ℕ) : StoreTransaction Key :=
  ⟨isVersionChange, false, keyGeneratorValue, none, none, none, ∅⟩

/-- Remember the value a key had, the first time it changes; a null value for a new key. -/
def recordValueChanged (transaction : StoreTransaction Key) (key : Key)
    (value : Option ThreadSafeDataBuffer) : StoreTransaction Key :=
  if transaction.isAborting then transaction
  else if transaction.clearedKeyValueMap.isSome then transaction
  else
    let map := transaction.originalValues.getD ∅
    match map.lookup key with
    | some _ => { transaction with originalValues := some map }
    | none => { transaction with originalValues := some (map.insert key (value.getD none)) }

end StoreTransaction

structure OpenStore (Key KeyPath : Type*) where
  store : MemoryObjectStore Key KeyPath
  transaction : StoreTransaction Key

namespace MemoryObjectStore

variable (store : MemoryObjectStore Key KeyPath)

def indexForIdentifier (identifier : ℕ) : Option (IndexRef × MemoryIndex Key KeyPath) :=
  (pairs store.indexes).find? fun entry => entry.2.info.identifier = identifier

def hasIndex (name : String) : Bool :=
  (pairs store.indexes).any fun entry => entry.2.info.name = name

variable {store : MemoryObjectStore Key KeyPath}

theorem lookup_of_indexForIdentifier {identifier : ℕ} {ref : IndexRef}
    {index : MemoryIndex Key KeyPath} (h : store.indexForIdentifier identifier = some (ref, index)) :
    store.indexes.lookup ref = some index ∧ index.info.identifier = identifier := by
  refine ⟨mem_pairs.mp (mem_of_find?_eq_some h), ?_⟩
  simpa using find?_some h

theorem identifier_ne_of_indexForIdentifier_none {identifier : ℕ}
    (h : store.indexForIdentifier identifier = none) {ref : IndexRef}
    {index : MemoryIndex Key KeyPath} (hget : store.indexes.lookup ref = some index) :
    index.info.identifier ≠ identifier := by
  have hnone := find?_eq_none.mp h (ref, index) (mem_pairs.mpr hget)
  simpa using hnone

variable [LinearOrder Key]

def recordAt (store : MemoryObjectStore Key KeyPath) (key : Key) : Option ThreadSafeDataBuffer :=
  store.keyValueStore.bind fun map => map.lookup key

variable (keys : Finset Key)

def least : Option Key := keys.min

def lowerBound (bound : Option Key) : Option Key :=
  least (keys.filter fun key => ∀ lower ∈ bound, lower ≤ key)

def next (key : Key) : Option Key := least (keys.filter fun other => key < other)

def lowestInRange (range : IDBKeyRangeData Key) : Option Key :=
  match lowerBound keys range.lowerKey with
  | none => none
  | some lowest =>
    if range.lowerOpen = true ∧ range.lowerKey = some lowest then next keys lowest else some lowest

variable (bindings : Bindings Key KeyPath Value)

def lowestKeyWithRecordInRange (store : MemoryObjectStore Key KeyPath) (range : IDBKeyRangeData Key) :
    Option Key :=
  match store.keyValueStore with
  | none => none
  | some map =>
    if range.isExactlyOneKey bindings && range.lowerKey.any fun key => (map.lookup key).isSome then
      range.lowerKey
    else
      (lowestInRange (store.orderedKeys.getD ∅) range).filter fun lowest => range.BelowUpper lowest

theorem least_eq_some {keys : Finset Key} :
    least keys = some key ↔ key ∈ keys ∧ ∀ other ∈ keys, key ≤ other := by
  constructor
  · intro h
    exact ⟨Finset.mem_of_min h, fun other hoth => Finset.min_le_of_eq hoth h⟩
  · rintro ⟨hmem, hle⟩
    apply le_antisymm (Finset.min_le hmem)
    apply Finset.le_min
    intro other hoth
    exact WithTop.coe_le_coe.mpr (hle other hoth)

theorem least_eq_none {keys : Finset Key} : least keys = none ↔ keys = ∅ :=
  Finset.min_eq_top

theorem lowestInRange_eq_least (range : IDBKeyRangeData Key) :
    lowestInRange keys range = least (keys.filter range.AboveLower) := by
  unfold lowestInRange
  cases hbound : lowerBound keys range.lowerKey with
  | none =>
    symm
    rw [lowerBound, least_eq_none] at hbound
    apply least_eq_none.mpr
    apply Finset.filter_eq_empty_iff.mpr
    intro key hkey habove
    exact Finset.filter_eq_empty_iff.mp hbound hkey fun lower hlow => (habove lower hlow).1
  | some lowest =>
    obtain ⟨hmem, hleast⟩ := least_eq_some.mp hbound
    obtain ⟨hlowest, hlow⟩ := mem_filter.mp hmem
    dsimp only
    split_ifs with hopen
    · apply congrArg least
      apply Finset.filter_congr
      intro key _
      simp only [IDBKeyRangeData.AboveLower, hopen.1, hopen.2, mem_some_iff, forall_eq',
        forall_const]
      exact lt_iff_le_and_ne
    · symm
      apply least_eq_some.mpr
      refine ⟨mem_filter.mpr ⟨hlowest, fun lower h => ⟨hlow lower h, ?_⟩⟩, ?_⟩
      · rintro hstrict rfl
        exact hopen ⟨hstrict, h⟩
      · intro other hoth
        obtain ⟨hoth, habove⟩ := mem_filter.mp hoth
        exact hleast other (mem_filter.mpr ⟨hoth, fun lower h => (habove lower h).1⟩)

/-- The key found is the only one of the range, or the first ordered key in it. -/
theorem lowestKeyWithRecordInRange_cases {bindings : Bindings Key KeyPath Value}
    {range : IDBKeyRangeData Key}
    (h : store.lowestKeyWithRecordInRange bindings range = some key) :
    (range.isExactlyOneKey bindings ∧ range.lowerKey = some key ∧ store.recordAt key ≠ none) ∨
      (key ∈ store.orderedKeys.getD ∅ ∧ range.AboveLower key ∧ range.BelowUpper key ∧
        ∀ other ∈ store.orderedKeys.getD ∅, range.AboveLower other → key ≤ other) := by
  unfold lowestKeyWithRecordInRange at h
  cases hmap : store.keyValueStore with
  | none => simp [hmap] at h
  | some map =>
    simp only [hmap] at h
    split_ifs at h with hexact
    · obtain ⟨hone, hstore⟩ := Bool.and_eq_true_iff.mp hexact
      rw [h, any_some] at hstore
      rw [recordAt, hmap]
      exact .inl ⟨hone, h, isSome_iff_ne_none.mp hstore⟩
    · right
      rw [filter_eq_some_iff, lowestInRange_eq_least, least_eq_some] at h
      obtain ⟨⟨hmem, hleast⟩, hup⟩ := h
      obtain ⟨hkey, hlow⟩ := mem_filter.mp hmem
      exact ⟨hkey, hlow, of_decide_eq_true hup, fun other hoth habove =>
        hleast other (mem_filter.mpr ⟨hoth, habove⟩)⟩

/-- Put the value into the indexes in turn, up to the first one that refuses it. Returns the
indexes, those that took a key, and the error. -/
def putIndexKeys (key : Key) (value : JSValue Value) :
    List IndexRef → HashMap IndexRef (MemoryIndex Key KeyPath) → List (IndexRef × IndexKey Key) →
      HashMap IndexRef (MemoryIndex Key KeyPath) × List (IndexRef × IndexKey Key) × Option IDBError
  | [], indexes, changedIndexRecords => (indexes, changedIndexRecords, none)
  | ref :: refs, indexes, changedIndexRecords =>
    match indexes.lookup ref with
    | none => putIndexKeys key value refs indexes changedIndexRecords
    | some index =>
      let indexKey := generateIndexKeyForValue bindings index.info value
      if indexKey.isNull then putIndexKeys key value refs indexes changedIndexRecords
      else
        let result := index.putIndexKey bindings key indexKey
        match result.2 with
        | some error => (indexes.insert ref result.1, changedIndexRecords, some error)
        | none =>
          putIndexKeys key value refs (indexes.insert ref result.1)
            (changedIndexRecords ++ [(ref, indexKey)])

def revertIndexKey (key : Key) (indexes : HashMap IndexRef (MemoryIndex Key KeyPath))
    (record : IndexRef × IndexKey Key) : HashMap IndexRef (MemoryIndex Key KeyPath) :=
  match indexes.lookup record.1 with
  | none => indexes
  | some index => indexes.insert record.1 (index.removeRecord bindings key record.2)

def updateIndexesForPutRecord (iteration : IterationOrder IndexRef)
    (indexes : HashMap IndexRef (MemoryIndex Key KeyPath)) (key : Key)
    (value : ThreadSafeDataBuffer) : HashMap IndexRef (MemoryIndex Key KeyPath) × Option IDBError :=
  if bindings.isUndefinedOrNull value then (indexes, none)
  else
    let result := putIndexKeys bindings key (bindings.deserializeIDBValueToJSValue value)
      (iteration.order indexes.keys) indexes []
    match result.2.2 with
    | none => (result.1, none)
    | some error => (result.2.1.foldl (revertIndexKey bindings key) result.1, some error)

def updateIndexesForDeleteRecord (indexes : HashMap IndexRef (MemoryIndex Key KeyPath)) (value : Key) :
    HashMap IndexRef (MemoryIndex Key KeyPath) :=
  mapValues (fun _ index => index.removeEntriesWithValueKey value) indexes

/-- Fill an index from the records in turn, up to the first undefined or null value or the first
record that the index refuses. -/
def populateIndex (index : MemoryIndex Key KeyPath) :
    List (Key × ThreadSafeDataBuffer) → MemoryIndex Key KeyPath × Option IDBError
  | [] => (index, none)
  | (key, value) :: records =>
    if bindings.isUndefinedOrNull value then (index, none)
    else
      let indexKey :=
        generateIndexKeyForValue bindings index.info (bindings.deserializeIDBValueToJSValue value)
      if indexKey.isNull then populateIndex index records
      else
        let result := index.putIndexKey bindings key indexKey
        match result.2 with
        | some error => (result.1, some error)
        | none => populateIndex result.1 records

def populateIndexWithExistingRecords (iteration : IterationOrder (Key × ThreadSafeDataBuffer))
    (store : MemoryObjectStore Key KeyPath) (index : MemoryIndex Key KeyPath) :
    MemoryIndex Key KeyPath × Option IDBError :=
  match store.keyValueStore with
  | none => (index, none)
  | some map => populateIndex bindings index (iteration.order (pairs map))

end MemoryObjectStore

namespace OpenStore

variable [LinearOrder Key] (s : OpenStore Key KeyPath)

def deleteRecord (key : Key) : OpenStore Key KeyPath :=
  match s.store.keyValueStore with
  | none => { s with transaction := s.transaction.recordValueChanged key none }
  | some map =>
    match map.lookup key with
    | none => { s with transaction := s.transaction.recordValueChanged key none }
    | some value =>
      { store := { s.store with
          keyValueStore := some (map.erase key)
          orderedKeys := s.store.orderedKeys.map fun keys => keys.erase key
          indexes := MemoryObjectStore.updateIndexesForDeleteRecord s.store.indexes key }
        transaction := s.transaction.recordValueChanged key (some value) }

def remaining (range : IDBKeyRangeData Key) : ℕ :=
  2 * ((s.store.orderedKeys.getD ∅).filter range.AboveLower).card + if range.lowerOpen then 0 else 1

theorem orderedKeys_deleteRecord_subset (key : Key) :
    (s.deleteRecord key).store.orderedKeys.getD ∅ ⊆ s.store.orderedKeys.getD ∅ := by
  unfold deleteRecord
  split
  · exact Finset.Subset.refl _
  · split
    · exact Finset.Subset.refl _
    · cases s.store.orderedKeys with
      | none => exact Finset.Subset.refl _
      | some keys => exact Finset.erase_subset _ _

/-- Each step of deleting a range moves its lower bound past the deleted key. -/
theorem remaining_deleteRecord_lt {bindings : Bindings Key KeyPath Value}
    {s : OpenStore Key KeyPath} {range : IDBKeyRangeData Key}
    (h : s.store.lowestKeyWithRecordInRange bindings range = some key) :
    (s.deleteRecord key).remaining { range with lowerKey := some key, lowerOpen := true } <
      s.remaining range := by
  have hcases := MemoryObjectStore.lowestKeyWithRecordInRange_cases h
  have habove : range.AboveLower key := by
    rcases hcases with ⟨hexact, hlow, -⟩ | ⟨-, habove, -⟩
    · exact ((IDBKeyRangeData.inRange_iff_of_isExactlyOneKey hexact hlow key).mpr rfl).1
    · exact habove
  have hsubset : ((s.deleteRecord key).store.orderedKeys.getD ∅).filter
      ({ range with lowerKey := some key, lowerOpen := true } : IDBKeyRangeData Key).AboveLower ⊆
      (s.store.orderedKeys.getD ∅).filter range.AboveLower := by
    intro other hoth
    obtain ⟨hoth, hbound⟩ := mem_filter.mp hoth
    exact mem_filter.mpr ⟨orderedKeys_deleteRecord_subset s key hoth,
      habove.trans_lt (hbound key rfl).1 ((hbound key rfl).2 rfl)⟩
  simp only [remaining, if_true]
  rcases hcases with ⟨hexact, -⟩ | ⟨hmem, -⟩
  · obtain ⟨-, -, -, hopen, -⟩ := IDBKeyRangeData.isExactlyOneKey_iff hexact
    have hcard := Finset.card_le_card hsubset
    rw [hopen, if_neg nofun]
    omega
  · have hcard := Finset.card_lt_card <| (Finset.ssubset_iff_of_subset hsubset).mpr
      ⟨key, mem_filter.mpr ⟨hmem, habove⟩, fun hself =>
        ((mem_filter.mp hself).2 key rfl).2 rfl rfl⟩
    omega

variable (bindings : Bindings Key KeyPath Value)

def deleteRangeLoop (s : OpenStore Key KeyPath) (range : IDBKeyRangeData Key) :
    OpenStore Key KeyPath :=
  match _h : s.store.lowestKeyWithRecordInRange bindings range with
  | none => s
  | some key =>
    deleteRangeLoop (s.deleteRecord key) { range with lowerKey := some key, lowerOpen := true }
termination_by s.remaining range
decreasing_by exact remaining_deleteRecord_lt ‹_›

def deleteRange (s : OpenStore Key KeyPath) (inputRange : IDBKeyRangeData Key) :
    OpenStore Key KeyPath :=
  match inputRange.lowerKey with
  | some key =>
    if inputRange.isExactlyOneKey bindings then s.deleteRecord key
    else deleteRangeLoop bindings s inputRange
  | none => deleteRangeLoop bindings s inputRange

def addRecord (iteration : IterationOrder IndexRef) (s : OpenStore Key KeyPath) (keyData : Key)
    (value : ThreadSafeDataBuffer) : OpenStore Key KeyPath × Option IDBError :=
  let map := s.store.keyValueStore.getD ∅
  let keys := s.store.orderedKeys.getD ∅
  let result :=
    MemoryObjectStore.updateIndexesForPutRecord bindings iteration s.store.indexes keyData value
  match result.2 with
  | none =>
    ({ s with store := { s.store with
        keyValueStore := some (map.insert keyData value)
        orderedKeys := some (insert keyData keys)
        indexes := result.1 } }, none)
  | some error =>
    ({ s with store := { s.store with
        keyValueStore := some ((map.insert keyData value).erase keyData)
        orderedKeys := some ((insert keyData keys).erase keyData)
        indexes := result.1 } }, some error)

/-- Hand the records and the contents of the indexes over to the transaction, which takes only
those of the first clearing; the others stay where they are. -/
def clear : OpenStore Key KeyPath :=
  let clearedIndexValueStores := s.transaction.clearedIndexValueStores
  let indexes := mapValues (fun ref index =>
    if (clearedIndexValueStores.lookup ref).isSome then index else { index with records := none })
    s.store.indexes
  let clearedIndexValueStores' :=
    clearedIndexValueStores ∪ mapValues (fun _ index => index.records) s.store.indexes
  if s.transaction.clearedKeyValueMap.isSome then
    { store := { s.store with indexes }
      transaction := { s.transaction with clearedIndexValueStores := clearedIndexValueStores' } }
  else
    { store := { s.store with keyValueStore := none, orderedKeys := none, indexes }
      transaction := { s.transaction with
        clearedKeyValueMap := some s.store.keyValueStore
        clearedOrderedKeys := some s.store.orderedKeys
        clearedIndexValueStores := clearedIndexValueStores' } }

def registerIndex (ref : IndexRef) (index : MemoryIndex Key KeyPath) : OpenStore Key KeyPath :=
  { s with store := { s.store with indexes := s.store.indexes.insert ref index } }

def createIndex (iteration : IterationOrder (Key × ThreadSafeDataBuffer))
    (s : OpenStore Key KeyPath) (ref : IndexRef) (info : IDBIndexInfo KeyPath) :
    OpenStore Key KeyPath × Option IDBError :=
  if !s.transaction.isVersionChange then (s, some .constraintError)
  else
    let result := s.store.populateIndexWithExistingRecords bindings iteration (MemoryIndex.create info)
    match result.2 with
    | some error => (s, some error)
    | none => (s.registerIndex ref result.1, none)

def deleteIndex (indexIdentifier : ℕ) : OpenStore Key KeyPath × Option IDBError :=
  if !s.transaction.isVersionChange then (s, some .constraintError)
  else
    match s.store.indexForIdentifier indexIdentifier with
    | none => (s, some .constraintError)
    | some (ref, _) =>
      ({ s with store := { s.store with indexes := s.store.indexes.erase ref } }, none)

end OpenStore

inductive StoreOperation (Key KeyPath : Type*) where
  | addRecord (key : Key) (value : ThreadSafeDataBuffer) (iteration : IterationOrder IndexRef)
  | deleteRecord (key : Key)
  | deleteRange (range : IDBKeyRangeData Key)
  | clear
  | createIndex (ref : IndexRef) (info : IDBIndexInfo KeyPath)
      (iteration : IterationOrder (Key × ThreadSafeDataBuffer))
  | deleteIndex (identifier : ℕ)

/-- A successful operation. A record is added only under a free key, and an index is created only
with an identifier and a name that are not registered, as the code asserts. -/
def OpenStore.step [LinearOrder Key] (bindings : Bindings Key KeyPath Value)
    (s : OpenStore Key KeyPath) : StoreOperation Key KeyPath → Option (OpenStore Key KeyPath)
  | .addRecord key value iteration =>
    if s.store.recordAt key = none ∧ (s.addRecord bindings iteration key value).2 = none then
      some (s.addRecord bindings iteration key value).1
    else none
  | .deleteRecord key => some (s.deleteRecord key)
  | .deleteRange range => some (s.deleteRange bindings range)
  | .clear => some s.clear
  | .createIndex ref info iteration =>
    if ref ∉ s.store.indexes ∧ (s.store.indexForIdentifier info.identifier).isNone ∧
        s.store.hasIndex info.name = false ∧ (s.createIndex bindings iteration ref info).2 = none then
      some (s.createIndex bindings iteration ref info).1
    else none
  | .deleteIndex identifier =>
    if (s.deleteIndex identifier).2 = none then some (s.deleteIndex identifier).1 else none

@[ext]
structure PlainStore (Key KeyPath : Type*) where
  records : Key → Option ThreadSafeDataBuffer
  indexes : IndexRef → Option (IDBIndexInfo KeyPath)

namespace PlainStore

variable [LinearOrder Key]

def apply (model : PlainStore Key KeyPath) : StoreOperation Key KeyPath → PlainStore Key KeyPath
  | .addRecord key value _ => { model with records := update model.records key (some value) }
  | .deleteRecord key => { model with records := update model.records key none }
  | .deleteRange range =>
    { model with records := fun other =>
        if range.AboveLower other ∧ range.BelowUpper other then none else model.records other }
  | .clear => { model with records := fun _ => none }
  | .createIndex ref info _ =>
    { model with indexes := update model.indexes ref (some info) }
  | .deleteIndex identifier =>
    { model with indexes := fun ref =>
        (model.indexes ref).filter fun info => info.identifier ≠ identifier }

end PlainStore

namespace MemoryIndex

variable [LinearOrder Key] {bindings : Bindings Key KeyPath Value}

/-- The index is well formed and holds exactly the pairs of an index key and a primary key that
the records yield. -/
structure Files (bindings : Bindings Key KeyPath Value) (index : MemoryIndex Key KeyPath)
    (records : Set (Key × ThreadSafeDataBuffer)) : Prop where
  wellFormed : index.WellFormed
  mem_valueKeys : ∀ indexKey key, key ∈ index.valueKeys indexKey ↔
    ∃ value, (key, value) ∈ records ∧ indexKey ∈ indexKeys bindings index.info value

variable {index : MemoryIndex Key KeyPath} {records : Set (Key × ThreadSafeDataBuffer)}

theorem files_create (info : IDBIndexInfo KeyPath) : (create info).Files bindings ∅ :=
  ⟨wellFormed_create info, fun indexKey key => by simp⟩

/-- Records without index keys change nothing. -/
theorem Files.union_of_nil (h : index.Files bindings records)
    {skipped : Set (Key × ThreadSafeDataBuffer)}
    (hnil : ∀ record ∈ skipped, indexKeys bindings index.info record.2 = []) :
    index.Files bindings (records ∪ skipped) := by
  refine ⟨h.wellFormed, fun indexKey key => (h.mem_valueKeys indexKey key).trans ?_⟩
  refine exists_congr fun value => ⟨fun ⟨hmem, hkey⟩ => ⟨.inl hmem, hkey⟩, ?_⟩
  rintro ⟨hmem | hmem, hkey⟩
  · exact ⟨hmem, hkey⟩
  · rw [hnil _ hmem] at hkey
    cases hkey

variable {key : Key} {value : ThreadSafeDataBuffer}

theorem Files.insert_of_nil (h : index.Files bindings records)
    (hnil : indexKeys bindings index.info value = []) :
    index.Files bindings (insert (key, value) records) := by
  rw [Set.insert_eq, Set.union_comm]
  apply h.union_of_nil
  intro record hrec
  rw [Set.mem_singleton_iff.mp hrec]
  exact hnil

section

variable (bindings : Bindings Key KeyPath Value)

def valueIndexKey (info : IDBIndexInfo KeyPath) (value : ThreadSafeDataBuffer) :
    Option (IndexKey Key) :=
  if bindings.isUndefinedOrNull value then none
  else
    let indexKey :=
      generateIndexKeyForValue bindings info (bindings.deserializeIDBValueToJSValue value)
    if indexKey.isNull then none else some indexKey

theorem indexKeys_eq (info : IDBIndexInfo KeyPath) (value : ThreadSafeDataBuffer) :
    indexKeys bindings info value =
      (valueIndexKey bindings info value).elim [] fun indexKey => indexKey.recordKeys bindings info
    := by
  unfold indexKeys valueIndexKey
  dsimp only
  split_ifs <;> rfl

variable (index : MemoryIndex Key KeyPath) (key : Key) (value : ThreadSafeDataBuffer)

def putValue : MemoryIndex Key KeyPath × Option IDBError :=
  (valueIndexKey bindings index.info value).elim (index, none) (index.putIndexKey bindings key)

@[simp]
theorem info_putValue : (index.putValue bindings key value).1.info = index.info := by
  unfold putValue
  cases valueIndexKey bindings index.info value with
  | none => rfl
  | some indexKey => exact info_putIndexKey ..

def takenBack : MemoryIndex Key KeyPath :=
  (valueIndexKey bindings index.info value).elim index fun indexKey =>
    (index.putIndexKey bindings key indexKey).1.removeRecord bindings key indexKey

@[simp]
theorem info_takenBack : (index.takenBack bindings key value).info = index.info := by
  unfold takenBack
  cases valueIndexKey bindings index.info value with
  | none => rfl
  | some indexKey =>
    rw [elim_some, removeRecord]
    split_ifs <;> exact info_putIndexKey ..

end

theorem WellFormed.putValue_error_iff (h : index.WellFormed) (key : Key)
    (value : ThreadSafeDataBuffer) :
    (index.putValue bindings key value).2 ≠ none ↔ index.info.unique ∧
      ∃ indexKey ∈ indexKeys bindings index.info value, (index.valueKeys indexKey).Nonempty := by
  rw [indexKeys_eq, putValue]
  cases valueIndexKey bindings index.info value with
  | none => simp
  | some indexKey => exact h.putIndexKey_error_iff bindings key indexKey

/-- An accepted record is filed with the others. -/
theorem Files.putIndexKey (h : index.Files bindings records) {indexKey : IndexKey Key}
    (hkeys : indexKeys bindings index.info value = indexKey.recordKeys bindings index.info)
    (hok : (index.putIndexKey bindings key indexKey).2 = none) :
    (index.putIndexKey bindings key indexKey).1.Files bindings (insert (key, value) records) := by
  obtain ⟨hwf, hvalueKeys⟩ := h.wellFormed.putIndexKey_of_ok hok
  refine ⟨hwf, fun other primary => ?_⟩
  rw [hvalueKeys, info_putIndexKey, ← hkeys]
  have hmem := h.mem_valueKeys other primary
  constructor
  · intro hprim
    split_ifs at hprim with hoth
    · rcases Finset.mem_insert.mp hprim with rfl | hprim
      · exact ⟨value, .inl rfl, hoth⟩
      · obtain ⟨value', hrec, hkey⟩ := hmem.mp hprim
        exact ⟨value', .inr hrec, hkey⟩
    · obtain ⟨value', hrec, hkey⟩ := hmem.mp hprim
      exact ⟨value', .inr hrec, hkey⟩
  · rintro ⟨value', heq | hrec, hkey⟩
    · cases heq
      rw [if_pos hkey]
      exact Finset.mem_insert_self _ _
    · have hprim := hmem.mpr ⟨value', hrec, hkey⟩
      split_ifs with hoth
      · exact Finset.mem_insert_of_mem hprim
      · exact hprim

/-- A record that the index does not refuse is filed with the others. -/
theorem Files.putValue (h : index.Files bindings records)
    (hok : (index.putValue bindings key value).2 = none) :
    (index.putValue bindings key value).1.Files bindings (insert (key, value) records) := by
  have hkeys := indexKeys_eq bindings index.info value
  unfold MemoryIndex.putValue at hok ⊢
  cases hkey : valueIndexKey bindings index.info value with
  | none =>
    rw [hkey] at hkeys
    exact h.insert_of_nil hkeys
  | some indexKey =>
    rw [hkey] at hkeys hok
    exact h.putIndexKey hkeys hok

/-- A refused record only makes the value store of the index. -/
theorem putValue_of_error (herr : (index.putValue bindings key value).2 ≠ none) :
    (index.putValue bindings key value).1 = { index with records := some index.valueStore } := by
  unfold MemoryIndex.putValue at herr ⊢
  cases hkey : valueIndexKey bindings index.info value with
  | none =>
    rw [hkey] at herr
    exact absurd rfl herr
  | some indexKey =>
    rw [hkey] at herr
    exact putIndexKey_of_error herr

theorem Files.putValue_of_error (h : index.Files bindings records)
    (herr : (index.putValue bindings key value).2 ≠ none) :
    (index.putValue bindings key value).1.Files bindings records := by
  rw [MemoryIndex.putValue_of_error herr]
  exact ⟨⟨h.wellFormed.unique, h.wellFormed.records⟩, h.mem_valueKeys⟩

theorem Files.removeEntriesWithValueKey (h : index.Files bindings records) (key : Key) :
    (index.removeEntriesWithValueKey key).Files bindings {record ∈ records | record.1 ≠ key} := by
  refine ⟨h.wellFormed.removeEntriesWithValueKey key, fun indexKey primary => ?_⟩
  rw [valueKeys_removeEntriesWithValueKey, Finset.mem_erase, h.mem_valueKeys]
  constructor
  · rintro ⟨hne, value, hrec, hkey⟩
    exact ⟨value, ⟨hrec, hne⟩, hkey⟩
  · rintro ⟨value, ⟨hrec, hne⟩, hkey⟩
    exact ⟨hne, value, hrec, hkey⟩

end MemoryIndex

def NoKeysPastSkipped [DecidableEq Key] (bindings : Bindings Key KeyPath Value)
    (info : IDBIndexInfo KeyPath) (records : List (Key × ThreadSafeDataBuffer)) : Prop :=
  ∀ before skipped after, records = before ++ skipped :: after →
    bindings.isUndefinedOrNull skipped.2 = true →
      ∀ record ∈ after, indexKeys bindings info record.2 = []

namespace MemoryObjectStore

variable [LinearOrder Key] {bindings : Bindings Key KeyPath Value}

theorem populateIndex_cons (bindings : Bindings Key KeyPath Value) (index : MemoryIndex Key KeyPath)
    (key : Key) (value : ThreadSafeDataBuffer) (rest : List (Key × ThreadSafeDataBuffer)) :
    populateIndex bindings index ((key, value) :: rest) =
      if bindings.isUndefinedOrNull value then (index, none)
      else match (index.putValue bindings key value).2 with
        | some error => ((index.putValue bindings key value).1, some error)
        | none => populateIndex bindings (index.putValue bindings key value).1 rest := by
  rw [populateIndex]
  unfold MemoryIndex.putValue MemoryIndex.valueIndexKey
  dsimp only
  split_ifs <;> rfl

variable {index : MemoryIndex Key KeyPath}

theorem files_populateIndex {records : Set (Key × ThreadSafeDataBuffer)}
    (h : index.Files bindings records) {existing : List (Key × ThreadSafeDataBuffer)}
    (hguard : NoKeysPastSkipped bindings index.info existing)
    (hok : (populateIndex bindings index existing).2 = none) :
    (populateIndex bindings index existing).1.Files bindings (records ∪ {record | record ∈ existing}) ∧
      (populateIndex bindings index existing).1.info = index.info := by
  induction existing generalizing index records with
  | nil =>
    refine ⟨?_, rfl⟩
    have hempty : records ∪ {record | record ∈ []} = records := by simp
    rw [hempty]
    exact h
  | cons first rest ih =>
    obtain ⟨key, value⟩ := first
    have hset : records ∪ {record | record ∈ (key, value) :: rest} =
        insert (key, value) records ∪ {record | record ∈ rest} := by
      ext record
      simp only [Set.mem_union, Set.mem_ofPred_eq, mem_cons, Set.mem_insert_iff]
      tauto
    rw [hset]
    rw [populateIndex_cons] at hok ⊢
    split_ifs at hok ⊢ with hval
    · refine ⟨(h.insert_of_nil ?_).union_of_nil fun record hrec => ?_, rfl⟩
      · rw [indexKeys, if_pos hval]
      · exact hguard [] (key, value) rest rfl hval record hrec
    · split at hok
      · cases hok
      · rename_i hput
        obtain ⟨hfiles, hinfo⟩ := ih (h.putValue hput)
          (fun before skipped after heq => by
            rw [MemoryIndex.info_putValue]
            exact hguard (_ :: before) skipped after (by rw [heq, cons_append])) hok
        exact ⟨hfiles, hinfo.trans (MemoryIndex.info_putValue ..)⟩

/-- Filling an index reaches no record past an undefined or null one. -/
theorem valueKeys_populateIndex_of_skipped {records : Set (Key × ThreadSafeDataBuffer)}
    (h : index.Files bindings records) {before after : List (Key × ThreadSafeDataBuffer)}
    {skipped : Key × ThreadSafeDataBuffer} (hskipped : bindings.isUndefinedOrNull skipped.2)
    {indexKey : Key}
    (hkey : key ∈ (populateIndex bindings index (before ++ skipped :: after)).1.valueKeys indexKey) :
    key ∈ Prod.fst '' records ∨ key ∈ before.map Prod.fst := by
  have hfiled : ∀ {index' : MemoryIndex Key KeyPath} {records' : Set (Key × ThreadSafeDataBuffer)},
      index'.Files bindings records' → key ∈ index'.valueKeys indexKey → key ∈ Prod.fst '' records' := by
    intro index' records' h' hkey'
    obtain ⟨value, hrec, -⟩ := (h'.mem_valueKeys indexKey key).mp hkey'
    exact ⟨(key, value), hrec, rfl⟩
  induction before generalizing index records with
  | nil =>
    rw [nil_append, populateIndex, if_pos hskipped] at hkey
    exact .inl (hfiled h hkey)
  | cons first rest ih =>
    rw [cons_append, populateIndex_cons] at hkey
    split_ifs at hkey with hval
    · exact .inl (hfiled h hkey)
    · split at hkey
      · rename_i error herr
        exact .inl (hfiled (h.putValue_of_error (herr ▸ some_ne_none error)) hkey)
      · rename_i hok
        rcases ih (h.putValue hok) hkey with ⟨record, rfl | hrec, rfl⟩ | hrest
        · exact .inr mem_cons_self
        · exact .inl ⟨record, hrec, rfl⟩
        · exact .inr (mem_cons_of_mem _ hrest)

def filedRecords (bindings : Bindings Key KeyPath Value)
    (indexes : HashMap IndexRef (MemoryIndex Key KeyPath)) (value : ThreadSafeDataBuffer)
    (refs : List IndexRef) : List (IndexRef × IndexKey Key) :=
  refs.filterMap fun ref => (indexes.lookup ref).bind fun index =>
    (MemoryIndex.valueIndexKey bindings index.info value).map fun indexKey => (ref, indexKey)

omit [LinearOrder Key] in
theorem filedRecords_cons (bindings : Bindings Key KeyPath Value)
    (indexes : HashMap IndexRef (MemoryIndex Key KeyPath)) (value : ThreadSafeDataBuffer)
    (ref : IndexRef) (refs : List IndexRef) :
    filedRecords bindings indexes value (ref :: refs) =
      filedRecords bindings indexes value [ref] ++ filedRecords bindings indexes value refs := by
  rw [filedRecords, filedRecords, filedRecords, ← filterMap_append]
  rfl

section PutIndexKeys

variable (bindings) (key : Key) {value : ThreadSafeDataBuffer}
  (indexes : HashMap IndexRef (MemoryIndex Key KeyPath)) (changed : List (IndexRef × IndexKey Key))

/-- An index takes the value, or has no key for it, and the loop goes on; or it refuses the value. -/
theorem putIndexKeys_cons_cases (hval : ¬ bindings.isUndefinedOrNull value) (ref : IndexRef)
    (refs : List IndexRef) :
    (∃ indexes' : HashMap IndexRef (MemoryIndex Key KeyPath), (∀ other, indexes'.lookup other =
        if other = ref then (indexes.lookup ref).map fun index => (index.putValue bindings key value).1
        else indexes.lookup other) ∧
      (∀ index, indexes.lookup ref = some index → (index.putValue bindings key value).2 = none) ∧
      putIndexKeys bindings key (bindings.deserializeIDBValueToJSValue value) (ref :: refs) indexes
          changed =
        putIndexKeys bindings key (bindings.deserializeIDBValueToJSValue value) refs indexes'
          (changed ++ filedRecords bindings indexes value [ref])) ∨
    ∃ index error, indexes.lookup ref = some index ∧
      (index.putValue bindings key value).2 = some error ∧
      putIndexKeys bindings key (bindings.deserializeIDBValueToJSValue value) (ref :: refs) indexes
          changed =
        (indexes.insert ref (index.putValue bindings key value).1, changed, some error) := by
  rw [putIndexKeys]
  cases hget : indexes.lookup ref with
  | none =>
    refine .inl ⟨indexes, fun other => ?_, nofun, ?_⟩
    · split_ifs with heq
      · rw [heq, hget, map_none]
      · rfl
    · simp [filedRecords, hget]
  | some index =>
    by_cases hnull : (generateIndexKeyForValue bindings index.info
        (bindings.deserializeIDBValueToJSValue value)).isNull
    · have hkey : MemoryIndex.valueIndexKey bindings index.info value = none := by
        simp [MemoryIndex.valueIndexKey, hval, hnull]
      have hput : index.putValue bindings key value = (index, none) := by
        rw [MemoryIndex.putValue, hkey, elim_none]
      refine .inl ⟨indexes, fun other => ?_, fun index' h => ?_, ?_⟩
      · split_ifs with heq
        · rw [heq, hget, map_some, hput]
        · rfl
      · rw [← some.inj h, hput]
      · simp [filedRecords, hget, hnull, hkey]
    · have hkey : MemoryIndex.valueIndexKey bindings index.info value =
          some (generateIndexKeyForValue bindings index.info
            (bindings.deserializeIDBValueToJSValue value)) := by
        simp [MemoryIndex.valueIndexKey, hval, hnull]
      have hput : index.putValue bindings key value = index.putIndexKey bindings key
          (generateIndexKeyForValue bindings index.info
            (bindings.deserializeIDBValueToJSValue value)) := by
        rw [MemoryIndex.putValue, hkey, elim_some]
      simp only [if_neg hnull, ← hput]
      cases herr : (index.putValue bindings key value).2 with
      | some error => exact .inr ⟨index, error, rfl, herr, rfl⟩
      | none =>
        refine .inl ⟨_, fun other => lookup_insert_eq .., fun index' h => ?_, ?_⟩
        · rw [← some.inj h, herr]
        · simp [filedRecords, hget, hkey]

/-- The indexes take the value in turn, up to the first one that refuses it. -/
theorem putIndexKeys_spec (hval : ¬ bindings.isUndefinedOrNull value) {refs : List IndexRef}
    (hnodup : refs.Nodup) {result : HashMap IndexRef (MemoryIndex Key KeyPath) ×
      List (IndexRef × IndexKey Key) × Option IDBError}
    (hres : putIndexKeys bindings key (bindings.deserializeIDBValueToJSValue value) refs indexes
      changed = result) :
    ∃ taken rest, refs = taken ++ rest ∧ (∀ ref ∈ taken, ∀ index, indexes.lookup ref = some index →
        (index.putValue bindings key value).2 = none) ∧
      (∀ other, result.1.lookup other =
        if other ∈ taken ++ rest.take 1 then
          (indexes.lookup other).map fun index => (index.putValue bindings key value).1
        else indexes.lookup other) ∧
      result.2.1 = changed ++ filedRecords bindings indexes value taken ∧
      (result.2.2 = (rest.head?.bind indexes.lookup).bind fun index =>
        (index.putValue bindings key value).2) ∧
      (rest ≠ [] → result.2.2 ≠ none) := by
  induction refs generalizing indexes changed with
  | nil =>
    subst hres
    exact ⟨[], [], rfl, by simp, by simp [putIndexKeys], by simp [putIndexKeys, filedRecords], rfl,
      fun h => absurd rfl h⟩
  | cons first rest ih =>
    obtain ⟨hfst, hrest⟩ := nodup_cons.mp hnodup
    rcases putIndexKeys_cons_cases bindings key indexes changed hval first rest with
      ⟨indexes', hget, hok, heq⟩ | ⟨index, error, hidx, herr, heq⟩
    · obtain ⟨taken, rest', rfl, htaken, hgets, hchanged, hlast, hrefuse⟩ :=
        ih indexes' _ hrest (heq.symm.trans hres)
      have hoth : ∀ ref ∈ taken ++ rest', indexes'.lookup ref = indexes.lookup ref := by
        intro ref href
        rw [hget, if_neg (ne_of_mem_of_not_mem href hfst)]
      refine ⟨first :: taken, rest', rfl, ?_, fun other => ?_, ?_, ?_, hrefuse⟩
      · intro ref href index hidx
        rcases mem_cons.mp href with rfl | href
        · exact hok index hidx
        · rw [← hoth ref (mem_append_left _ href)] at hidx
          exact htaken ref href index hidx
      · rw [hgets, cons_append, hget]
        by_cases hsame : other = first
        · have hnot : other ∉ taken ++ rest'.take 1 := fun hmem =>
            hfst (hsame ▸ (List.Sublist.append_left (take_sublist 1 rest') taken).subset hmem)
          rw [if_neg hnot, if_pos hsame, if_pos (mem_cons.mpr (.inl hsame)), hsame]
        · rw [if_neg hsame]
          exact if_congr (mem_cons.trans (or_iff_right hsame)).symm rfl rfl
      · have hfiled : filedRecords bindings indexes' value taken =
            filedRecords bindings indexes value taken := by
          apply filterMap_congr
          intro ref href
          rw [hoth ref (mem_append_left _ href)]
        rw [hchanged, hfiled, append_assoc, ← filedRecords_cons]
      · rw [hlast]
        cases rest' with
        | nil => rfl
        | cons ref after => rw [head?_cons, bind_some, bind_some, hoth ref (by simp)]
    · subst hres
      rw [heq]
      refine ⟨[], first :: rest, rfl, by simp, fun other => ?_, (append_nil _).symm, ?_,
        fun _ => some_ne_none error⟩
      · rw [lookup_insert_eq]
        by_cases hsame : other = first
        · rw [hsame, hidx]
          simp
        · simp [hsame]
      · rw [head?_cons, bind_some, hidx, bind_some, herr]

variable (value)

/-- Taking the value out again of the indexes that took it. -/
theorem lookup_foldl_revertIndexKey {taken : List IndexRef} (hnodup : taken.Nodup)
    {indexes' : HashMap IndexRef (MemoryIndex Key KeyPath)}
    (hput : ∀ ref ∈ taken, indexes'.lookup ref =
      (indexes.lookup ref).map fun index => (index.putValue bindings key value).1) (other : IndexRef) :
    ((filedRecords bindings indexes value taken).foldl (revertIndexKey bindings key) indexes').lookup
        other =
      if other ∈ taken then (indexes.lookup other).map fun index => index.takenBack bindings key value
      else indexes'.lookup other := by
  induction taken generalizing indexes' with
  | nil => rfl
  | cons first rest ih =>
    obtain ⟨hfst, hrest⟩ := nodup_cons.mp hnodup
    have hreverted : ∀ ref, ((filedRecords bindings indexes value [first]).foldl
        (revertIndexKey bindings key) indexes').lookup ref =
        if ref = first then (indexes.lookup first).map fun index => index.takenBack bindings key value
        else indexes'.lookup ref := by
      intro ref
      have hold := hput first mem_cons_self
      unfold MemoryIndex.takenBack
      unfold MemoryIndex.putValue at hold
      cases hidx : indexes.lookup first with
      | none =>
        rw [hidx, map_none] at hold
        split_ifs with hsame
        · rw [hsame]
          simp [filedRecords, hidx, hold]
        · simp [filedRecords, hidx]
      | some index =>
        rw [hidx, map_some] at hold
        cases hkey : MemoryIndex.valueIndexKey bindings index.info value with
        | none =>
          rw [hkey, elim_none] at hold
          split_ifs with hsame
          · rw [hsame]
            simp [filedRecords, hidx, hold, hkey]
          · simp [filedRecords, hidx, hkey]
        | some indexKey =>
          rw [hkey, elim_some] at hold
          have hfiled : filedRecords bindings indexes value [first] = [(first, indexKey)] := by
            simp [filedRecords, hidx, hkey]
          rw [hfiled, foldl_cons, foldl_nil, revertIndexKey, hold, map_some, hkey]
          exact lookup_insert_eq ..
    rw [filedRecords_cons, foldl_append, ih hrest]
    · rw [hreverted]
      by_cases hsame : other = first
      · rw [hsame, if_neg hfst, if_pos rfl, if_pos mem_cons_self]
      · rw [if_neg hsame]
        exact if_congr (mem_cons.trans (or_iff_right hsame)).symm rfl rfl
    · intro ref href
      rw [hreverted, if_neg (ne_of_mem_of_not_mem href hfst)]
      exact hput ref (mem_cons_of_mem _ href)

/-- The indexes after a put: all have taken the record, or the first ones had it taken back after
another one refused it. -/
theorem updateIndexesForPutRecord_spec (order : IterationOrder IndexRef) :
    ∃ taken rest, order.order indexes.keys = taken ++ rest ∧
      (∀ ref ∈ taken, ∀ index, indexes.lookup ref = some index →
        (index.putValue bindings key value).2 = none) ∧
      ((rest = [] ∧ (updateIndexesForPutRecord bindings order indexes key value).2 = none ∧
        ∀ other, (updateIndexesForPutRecord bindings order indexes key value).1.lookup other =
          (indexes.lookup other).map fun index => (index.putValue bindings key value).1) ∨
      ∃ ref after index error, rest = ref :: after ∧ indexes.lookup ref = some index ∧
        (index.putValue bindings key value).2 = some error ∧
        (updateIndexesForPutRecord bindings order indexes key value).2 = some error ∧
        (putIndexKeys bindings key (bindings.deserializeIDBValueToJSValue value)
          (order.order indexes.keys) indexes []).2.1 = filedRecords bindings indexes value taken ∧
        ∀ other, (updateIndexesForPutRecord bindings order indexes key value).1.lookup other =
          (indexes.lookup other).map fun index =>
            if other ∈ taken then index.takenBack bindings key value
            else if other = ref then (index.putValue bindings key value).1 else index) := by
  have hmem : ∀ other index, indexes.lookup other = some index →
      other ∈ order.order indexes.keys := fun other index hget =>
    order.mem_order.mpr (mem_keys_iff.mpr ⟨index, hget⟩)
  unfold updateIndexesForPutRecord
  split_ifs with hval
  · have hput : ∀ index : MemoryIndex Key KeyPath,
        index.putValue bindings key value = (index, none) := by
      intro index
      rw [MemoryIndex.putValue, MemoryIndex.valueIndexKey, if_pos hval, elim_none]
    refine ⟨_, [], (append_nil _).symm, fun _ _ index _ => by rw [hput], .inl ⟨rfl, rfl, ?_⟩⟩
    intro other
    simp only [hput, Option.map_id']
  · have hnodup := order.nodup_order indexes.keys_nodup
    obtain ⟨taken, rest, hord, htaken, hgets, hchanged, hlast, hrefuse⟩ :=
      putIndexKeys_spec bindings key indexes [] hval hnodup rfl
    refine ⟨taken, rest, hord, htaken, ?_⟩
    dsimp only
    cases rest with
    | nil =>
      rw [hlast]
      refine .inl ⟨rfl, rfl, fun other => (hgets other).trans ?_⟩
      rw [take_nil, ← hord]
      split_ifs with hoth
      · rfl
      · cases hidx : indexes.lookup other with
        | none => rfl
        | some index => exact absurd (hmem other index hidx) hoth
    | cons ref after =>
      obtain ⟨error, herr⟩ := ne_none_iff_exists'.mp (hrefuse (cons_ne_nil _ _))
      obtain ⟨index, hidx, hput⟩ := bind_eq_some_iff.mp (hlast.symm.trans herr)
      rw [herr, hchanged, nil_append]
      refine .inr ⟨ref, after, index, error, rfl, hidx, hput, rfl, rfl, fun other => ?_⟩
      rw [hord] at hnodup
      rw [lookup_foldl_revertIndexKey bindings key value indexes hnodup.of_append_left
        fun ref' href => (hgets ref').trans (if_pos (mem_append_left _ href)), hgets]
      by_cases hoth : other ∈ taken
      · simp only [if_pos hoth]
      · have hrest : other ∈ taken ++ (ref :: after).take 1 ↔ other = ref := by simp [hoth]
        simp only [if_neg hoth, hrest]
        split_ifs
        · rfl
        · exact map_id'.symm

variable {order : IterationOrder IndexRef} {key value indexes}

/-- A record that is accepted is put into every index. -/
theorem updateIndexesForPutRecord_of_ok
    (hok : (updateIndexesForPutRecord bindings order indexes key value).2 = none) :
    (∀ ref index, indexes.lookup ref = some index → (index.putValue bindings key value).2 = none) ∧
      ∀ ref, (updateIndexesForPutRecord bindings order indexes key value).1.lookup ref =
        (indexes.lookup ref).map fun index => (index.putValue bindings key value).1 := by
  obtain ⟨taken, rest, hord, htaken, ⟨rfl, -, hget⟩ | ⟨_, _, _, error, -, -, -, herr, -, -⟩⟩ :=
    updateIndexesForPutRecord_spec bindings key value indexes order
  · refine ⟨fun ref index hidx => htaken ref ?_ index hidx, hget⟩
    rw [append_nil] at hord
    exact hord ▸ order.mem_order.mpr (mem_keys_iff.mpr ⟨index, hidx⟩)
  · exact absurd (hok.symm.trans herr) (some_ne_none error).symm

variable (order key value indexes)

/-- Putting a record keeps the indexes themselves. -/
theorem map_info_updateIndexesForPutRecord (ref : IndexRef) :
    ((updateIndexesForPutRecord bindings order indexes key value).1.lookup ref).map
      MemoryIndex.info = (indexes.lookup ref).map MemoryIndex.info := by
  obtain ⟨taken, rest, -, -, ⟨-, -, hget⟩ | ⟨_, _, _, _, -, -, -, -, -, hget⟩⟩ :=
    updateIndexesForPutRecord_spec bindings key value indexes order
  · rw [hget, Option.map_map]
    exact congrArg (Option.map · _) (funext fun index => MemoryIndex.info_putValue ..)
  · rw [hget, Option.map_map]
    congr 1
    funext index
    rw [Function.comp_apply]
    split_ifs
    · exact MemoryIndex.info_takenBack ..
    · exact MemoryIndex.info_putValue ..
    · rfl

end PutIndexKeys

def records (store : MemoryObjectStore Key KeyPath) : Set (Key × ThreadSafeDataBuffer) :=
  {record | store.recordAt record.1 = some record.2}

variable {store : MemoryObjectStore Key KeyPath}

theorem mem_order_iff (order : IterationOrder (Key × ThreadSafeDataBuffer))
    {map : HashMap Key ThreadSafeDataBuffer} (hmap : store.keyValueStore = some map)
    {record : Key × ThreadSafeDataBuffer} :
    record ∈ order.order (pairs map) ↔ record ∈ store.records := by
  rw [IterationOrder.mem_order, mem_pairs]
  simp [records, recordAt, hmap]

theorem files_populateIndexWithExistingRecords {order : IterationOrder (Key × ThreadSafeDataBuffer)}
    (h : index.Files bindings ∅)
    (hguard : ∀ map, store.keyValueStore = some map → NoKeysPastSkipped bindings index.info (order.order (pairs map)))
    (hok : (store.populateIndexWithExistingRecords bindings order index).2 = none) :
    (store.populateIndexWithExistingRecords bindings order index).1.Files bindings store.records ∧
      (store.populateIndexWithExistingRecords bindings order index).1.info = index.info := by
  unfold populateIndexWithExistingRecords at hok ⊢
  cases hmap : store.keyValueStore with
  | none =>
    have hempty : store.records = ∅ := by
      ext record
      simp [records, recordAt, hmap]
    rw [hempty]
    exact ⟨h, rfl⟩
  | some map =>
    have hall : store.records = ∅ ∪ {record | record ∈ order.order (pairs map)} := by
      rw [Set.empty_union]
      exact Set.ext fun record => (mem_order_iff order hmap).symm
    rw [hmap] at hok
    rw [hall]
    exact files_populateIndex h (hguard map hmap) hok

/-- The ordered keys are the keys of the map, every index files the records, and the identifiers
of the indexes are distinct. -/
structure Consistent (bindings : Bindings Key KeyPath Value) (store : MemoryObjectStore Key KeyPath) :
    Prop where
  ordered : store.orderedKeys = store.keyValueStore.map fun map => map.keys.toFinset
  files : ∀ ref index, store.indexes.lookup ref = some index →
    index.Files bindings store.records
  identifiers : ∀ ref ref' index index', store.indexes.lookup ref = some index →
    store.indexes.lookup ref' = some index' → index.info.identifier = index'.info.identifier →
      ref = ref'

def plain (store : MemoryObjectStore Key KeyPath) : PlainStore Key KeyPath where
  records := store.recordAt
  indexes := fun ref => (store.indexes.lookup ref).map MemoryIndex.info

theorem Consistent.mem_orderedKeys (h : store.Consistent bindings) (key : Key) :
    key ∈ store.orderedKeys.getD ∅ ↔ store.recordAt key ≠ none := by
  rw [h.ordered, recordAt]
  cases store.keyValueStore with
  | none => simp
  | some map => simp [ne_none_iff_exists', mem_keys_iff]

theorem lookup_info_eq {store' : MemoryObjectStore Key KeyPath}
    (h : store'.plain.indexes = store.plain.indexes) {ref : IndexRef}
    {index' : MemoryIndex Key KeyPath} (hget : store'.indexes.lookup ref = some index') :
    ∃ index, store.indexes.lookup ref = some index ∧ index.info = index'.info := by
  have href := congrFun h ref
  simp only [plain, hget, map_some] at href
  exact map_eq_some_iff.mp href.symm

variable {store' : MemoryObjectStore Key KeyPath}

/-- A store keeps its records and indexes when it only loses indexes. -/
theorem Consistent.restrict (h : store.Consistent bindings)
    (hmap : store'.keyValueStore = store.keyValueStore)
    (hkeys : store'.orderedKeys = store.orderedKeys)
    (hidxs : ∀ ref index, store'.indexes.lookup ref = some index →
      store.indexes.lookup ref = some index) : store'.Consistent bindings := by
  have hrecs : store'.records = store.records := by simp only [records, recordAt, hmap]
  refine ⟨by rw [hmap, hkeys, h.ordered], fun ref index hget => ?_, ?_⟩
  · rw [hrecs]
    exact h.files ref index (hidxs ref index hget)
  · intro ref ref' index index' hget hget'
    exact h.identifiers ref ref' index index' (hidxs _ _ hget) (hidxs _ _ hget')

/-- Distinct identifiers only depend on which indexes are registered. -/
theorem Consistent.identifiers_of_plain
    (h : store.Consistent bindings) (hplain : store'.plain.indexes = store.plain.indexes) :
    ∀ ref ref' index index', store'.indexes.lookup ref = some index →
      store'.indexes.lookup ref' = some index' → index.info.identifier = index'.info.identifier →
        ref = ref' := by
  intro ref ref' index index' hget hget' heq
  obtain ⟨old, hold, hinfo⟩ := lookup_info_eq hplain hget
  obtain ⟨old', hold', hinfo'⟩ := lookup_info_eq hplain hget'
  exact h.identifiers ref ref' old old' hold hold' (by rw [hinfo, hinfo', heq])

end MemoryObjectStore

namespace OpenStore

open MemoryObjectStore

variable [LinearOrder Key] {bindings : Bindings Key KeyPath Value} (s : OpenStore Key KeyPath)

/-- The store after a record has been taken out of the map, the ordered set and the indexes. -/
theorem deleteRecord_cases (key : Key) : (s.store.recordAt key = none ∧
      s.deleteRecord key = { s with transaction := s.transaction.recordValueChanged key none }) ∨
    ∃ map value, s.store.keyValueStore = some map ∧ map.lookup key = some value ∧
      s.deleteRecord key =
        { store := { s.store with
            keyValueStore := some (map.erase key)
            orderedKeys := s.store.orderedKeys.map fun keys => keys.erase key
            indexes := updateIndexesForDeleteRecord s.store.indexes key }
          transaction := s.transaction.recordValueChanged key (some value) } := by
  unfold deleteRecord recordAt
  cases hmap : s.store.keyValueStore with
  | none => exact .inl ⟨rfl, rfl⟩
  | some map =>
    cases hval : map.lookup key with
    | none => exact .inl ⟨hval, by simp only [hval]⟩
    | some value => exact .inr ⟨map, value, rfl, hval, by simp only [hval]⟩

theorem recordAt_deleteRecord (key : Key) :
    (s.deleteRecord key).store.recordAt = update s.store.recordAt key none := by
  rcases deleteRecord_cases s key with ⟨hnone, heq⟩ | ⟨map, value, hmap, hval, heq⟩
  · rw [heq, ← hnone, Function.update_eq_self]
  · rw [heq]
    funext other
    simp only [recordAt, hmap, bind_some, lookup_erase_eq, update_apply]

theorem indexes_deleteRecord (key : Key) :
    (s.deleteRecord key).store.plain.indexes = s.store.plain.indexes := by
  rcases deleteRecord_cases s key with ⟨-, heq⟩ | ⟨map, value, -, -, heq⟩
  · rw [heq]
  · rw [heq]
    funext ref
    simp only [plain, updateIndexesForDeleteRecord, lookup_mapValues, Option.map_map]
    rfl

variable {s : OpenStore Key KeyPath}

/-- What deleting a record keeps, deleting a range keeps. -/
theorem deleteRange_keeps {P : OpenStore Key KeyPath → Prop}
    (hstep : ∀ s key, P s → P (s.deleteRecord key)) (h : P s) (range : IDBKeyRangeData Key) :
    P (s.deleteRange bindings range) := by
  have hloop : P (s.deleteRangeLoop bindings range) := by
    induction s, range using deleteRangeLoop.induct bindings with
    | case1 s range hnone =>
      rw [deleteRangeLoop, hnone]
      exact h
    | case2 s range key hsome ih =>
      rw [deleteRangeLoop, hsome]
      exact ih (hstep s key h)
  unfold deleteRange
  split
  · split_ifs
    · exact hstep s _ h
    · exact hloop
  · exact hloop

section

variable (h : s.store.Consistent bindings)

include h

theorem consistent_deleteRecord (key : Key) : (s.deleteRecord key).store.Consistent bindings := by
  have hrecs : (s.deleteRecord key).store.records = {record ∈ s.store.records | record.1 ≠ key} := by
    ext ⟨other, value⟩
    simp only [records, recordAt_deleteRecord, Set.mem_ofPred_eq, update_apply]
    by_cases hoth : other = key <;> simp [hoth]
  refine ⟨?_, ?_, h.identifiers_of_plain (indexes_deleteRecord s key)⟩
  · rcases deleteRecord_cases s key with ⟨-, heq⟩ | ⟨map, value, hmap, -, heq⟩
    · rw [heq]
      exact h.ordered
    · rw [heq, h.ordered, hmap]
      simp only [map_some, toFinset_keys_erase]
  · intro ref index hget
    rcases deleteRecord_cases s key with ⟨-, heq⟩ | ⟨map, value, -, -, heq⟩
    · rw [heq] at hget ⊢
      exact h.files ref index hget
    · rw [hrecs]
      rw [heq] at hget
      simp only [updateIndexesForDeleteRecord, lookup_mapValues] at hget
      obtain ⟨old, hold, rfl⟩ := map_eq_some_iff.mp hget
      exact (h.files ref old hold).removeEntriesWithValueKey key

omit h in
theorem plain_deleteRecord (s : OpenStore Key KeyPath) (key : Key) :
    (s.deleteRecord key).store.plain = s.store.plain.apply (.deleteRecord key) :=
  PlainStore.ext (recordAt_deleteRecord s key) (indexes_deleteRecord s key)

/-- Without a matching record, no stored key lies in the range. -/
theorem not_inRange_of_none {range : IDBKeyRangeData Key}
    (hnone : s.store.lowestKeyWithRecordInRange bindings range = none)
    (hkey : s.store.recordAt key ≠ none) : ¬ (range.AboveLower key ∧ range.BelowUpper key) := by
  intro hrng
  have hmem := (h.mem_orderedKeys key).mpr hkey
  unfold lowestKeyWithRecordInRange at hnone
  cases hmap : s.store.keyValueStore with
  | none => simp [recordAt, hmap] at hkey
  | some map =>
    simp only [hmap] at hnone
    split_ifs at hnone with hexact
    · obtain ⟨_, hlow, -⟩ :=
        IDBKeyRangeData.isExactlyOneKey_iff (Bool.and_eq_true_iff.mp hexact).1
      rw [hlow] at hnone
      cases hnone
    · rw [lowestInRange_eq_least] at hnone
      cases hleast : least ((s.store.orderedKeys.getD ∅).filter range.AboveLower) with
      | none =>
        rw [least_eq_none, Finset.filter_eq_empty_iff] at hleast
        exact hleast hmem hrng.1
      | some lowest =>
        rw [hleast, filter_eq_none_iff] at hnone
        have hle := (least_eq_some.mp hleast).2 key (mem_filter.mpr ⟨hmem, hrng.1⟩)
        refine hnone lowest rfl (decide_eq_true fun upper hup => ?_)
        obtain ⟨hkeyle, hopen⟩ := hrng.2 upper hup
        refine ⟨hle.trans hkeyle, fun htrue heq => hopen htrue (le_antisymm hkeyle ?_)⟩
        exact heq ▸ hle

/-- The key found is the least stored key in the range. -/
theorem least_of_some {range : IDBKeyRangeData Key} {lowest : Key}
    (hsome : s.store.lowestKeyWithRecordInRange bindings range = some lowest) :
    (range.AboveLower lowest ∧ range.BelowUpper lowest) ∧
      ∀ key, s.store.recordAt key ≠ none → range.AboveLower key → lowest ≤ key := by
  obtain ⟨hexact, hlow, -⟩ | ⟨-, habove, hbelow, hleast⟩ := lowestKeyWithRecordInRange_cases hsome
  · refine ⟨(IDBKeyRangeData.inRange_iff_of_isExactlyOneKey hexact hlow lowest).mpr rfl, ?_⟩
    exact fun key _ hkey => (hkey lowest hlow).1
  · exact ⟨⟨habove, hbelow⟩, fun key hkey => hleast key ((h.mem_orderedKeys key).mpr hkey)⟩

theorem deleteRangeLoop_spec (range : IDBKeyRangeData Key) :
    (s.deleteRangeLoop bindings range).store.Consistent bindings ∧
      (s.deleteRangeLoop bindings range).store.plain = s.store.plain.apply (.deleteRange range) := by
  induction s, range using deleteRangeLoop.induct bindings with
  | case1 s range hnone =>
    rw [deleteRangeLoop, hnone]
    refine ⟨h, PlainStore.ext ?_ rfl⟩
    funext key
    simp only [PlainStore.apply, plain]
    split_ifs with hrng
    · by_contra hkey
      exact not_inRange_of_none h hnone hkey hrng
    · rfl
  | case2 s range lowest hsome ih =>
    rw [deleteRangeLoop, hsome]
    obtain ⟨hcons, hplain⟩ := ih (consistent_deleteRecord h lowest)
    refine ⟨hcons, hplain.trans (PlainStore.ext ?_ (indexes_deleteRecord s lowest))⟩
    obtain ⟨hrng, hleast⟩ := least_of_some h hsome
    funext key
    simp only [PlainStore.apply, plain, recordAt_deleteRecord, update_apply]
    have hiff : s.store.recordAt key ≠ none → key ≠ lowest →
        (range.AboveLower key ↔ ({ range with lowerKey := some lowest, lowerOpen := true } :
          IDBKeyRangeData Key).AboveLower key) := by
      intro hkey hne
      constructor
      · intro habove lower hlow
        obtain rfl : lowest = lower := mem_some_iff.mp hlow
        exact ⟨hleast key hkey habove, fun _ => hne.symm⟩
      · intro habove
        obtain ⟨hle, hne⟩ := habove lowest rfl
        exact hrng.1.trans_lt hle (hne rfl)
    by_cases hne : key = lowest
    · subst hne
      simp [hrng]
    · by_cases hkey : s.store.recordAt key = none
      · simp [hkey]
      · rw [if_neg hne]
        exact if_congr (and_congr (hiff hkey hne).symm Iff.rfl) rfl rfl

theorem deleteRange_spec (range : IDBKeyRangeData Key) :
    (s.deleteRange bindings range).store.Consistent bindings ∧
      (s.deleteRange bindings range).store.plain = s.store.plain.apply (.deleteRange range) := by
  unfold deleteRange
  split
  · rename_i key hkey
    split_ifs with hexact
    · refine ⟨consistent_deleteRecord h key, (plain_deleteRecord s key).trans ?_⟩
      refine PlainStore.ext ?_ rfl
      funext other
      simp only [PlainStore.apply, update_apply,
        IDBKeyRangeData.inRange_iff_of_isExactlyOneKey hexact hkey]
    · exact deleteRangeLoop_spec h range
  · exact deleteRangeLoop_spec h range

omit h in
theorem addRecord_cases (bindings : Bindings Key KeyPath Value) (s : OpenStore Key KeyPath)
    (order : IterationOrder IndexRef) (key : Key) (value : ThreadSafeDataBuffer) :
    ((updateIndexesForPutRecord bindings order s.store.indexes key value).2 = none ∧
      s.addRecord bindings order key value =
        ({ s with store := { s.store with
            keyValueStore := some ((s.store.keyValueStore.getD ∅).insert key value)
            orderedKeys := some (insert key (s.store.orderedKeys.getD ∅))
            indexes := (updateIndexesForPutRecord bindings order s.store.indexes key value).1 } },
          none)) ∨
    ∃ error, (updateIndexesForPutRecord bindings order s.store.indexes key value).2 = some error ∧
      s.addRecord bindings order key value =
        ({ s with store := { s.store with
            keyValueStore := some (((s.store.keyValueStore.getD ∅).insert key value).erase key)
            orderedKeys := some ((insert key (s.store.orderedKeys.getD ∅)).erase key)
            indexes := (updateIndexesForPutRecord bindings order s.store.indexes key value).1 } },
          some error) := by
  unfold addRecord
  cases herr : (updateIndexesForPutRecord bindings order s.store.indexes key value).2 with
  | none => exact .inl ⟨rfl, by simp only [herr]⟩
  | some error => exact .inr ⟨error, rfl, by simp only [herr]⟩

omit h in
theorem indexes_addRecord (bindings : Bindings Key KeyPath Value) (s : OpenStore Key KeyPath)
    (order : IterationOrder IndexRef) (key : Key) (value : ThreadSafeDataBuffer) :
    (s.addRecord bindings order key value).1.store.plain.indexes = s.store.plain.indexes := by
  funext ref
  rcases addRecord_cases bindings s order key value with ⟨-, heq⟩ | ⟨error, -, heq⟩
  all_goals
    rw [heq]
    exact map_info_updateIndexesForPutRecord bindings key value s.store.indexes order ref

omit h in
/-- A refused record leaves no record under its key. -/
theorem recordAt_addRecord_of_error {value : ThreadSafeDataBuffer}
    {order : IterationOrder IndexRef} (herr : (s.addRecord bindings order key value).2 ≠ none) :
    (s.addRecord bindings order key value).1.store.recordAt =
      update s.store.recordAt key none := by
  obtain ⟨-, heq⟩ | ⟨error, -, heq⟩ := addRecord_cases bindings s order key value
  · exact absurd (by rw [heq]) herr
  · rw [heq]
    funext other
    simp only [recordAt, bind_some, lookup_erase_eq, lookup_insert_eq, update_apply]
    split_ifs
    · rfl
    · cases s.store.keyValueStore <;> rfl

def Applies (bindings : Bindings Key KeyPath Value) (s : OpenStore Key KeyPath)
    (operation : StoreOperation Key KeyPath) (t : OpenStore Key KeyPath) : Prop :=
  t.store.Consistent bindings ∧ t.store.plain = s.store.plain.apply operation ∧
    t.transaction = s.transaction

theorem addRecord_of_ok {value : ThreadSafeDataBuffer}
    {order : IterationOrder IndexRef} (hfree : s.store.recordAt key = none)
    (hok : (s.addRecord bindings order key value).2 = none) :
    s.Applies bindings (.addRecord key value order) (s.addRecord bindings order key value).1 := by
  obtain ⟨hput, heq⟩ | ⟨error, -, heq⟩ := addRecord_cases bindings s order key value
  · have hrecAt : (s.addRecord bindings order key value).1.store.recordAt =
        update s.store.recordAt key (some value) := by
      rw [heq]
      funext other
      simp only [recordAt, bind_some, lookup_insert_eq, update_apply]
      cases s.store.keyValueStore <;> rfl
    obtain ⟨hput, hget⟩ := updateIndexesForPutRecord_of_ok bindings hput
    have hidxs := indexes_addRecord bindings s order key value
    have hrecs : (s.addRecord bindings order key value).1.store.records =
        insert (key, value) s.store.records := by
      ext ⟨other, value'⟩
      simp only [records, hrecAt, Set.mem_ofPred_eq, update_apply, Set.mem_insert_iff,
        Prod.mk.injEq]
      by_cases hoth : other = key
      · simp [hoth, hfree, eq_comm]
      · simp [hoth]
    refine ⟨⟨?_, ?_, h.identifiers_of_plain hidxs⟩, PlainStore.ext hrecAt hidxs, ?_⟩
    · rw [heq, h.ordered]
      simp only [map_some, toFinset_keys_insert]
      cases s.store.keyValueStore <;> rfl
    · intro ref index' hget'
      rw [hrecs]
      rw [heq, hget] at hget'
      obtain ⟨index, hidx, rfl⟩ := map_eq_some_iff.mp hget'
      exact (h.files ref index hidx).putValue (hput ref index hidx)
    · rw [heq]
  · rw [heq] at hok
    cases hok

end

def FirstClearing (transaction : StoreTransaction Key) : Prop :=
  transaction.clearedKeyValueMap = none → transaction.clearedIndexValueStores = ∅

theorem firstClearing_recordValueChanged {transaction : StoreTransaction Key}
    (h : FirstClearing transaction) (key : Key) (value : Option ThreadSafeDataBuffer) :
    FirstClearing (transaction.recordValueChanged key value) := by
  unfold StoreTransaction.recordValueChanged
  split_ifs
  · exact h
  · exact h
  · dsimp only
    split <;> exact h

theorem firstClearing_deleteRecord (h : FirstClearing s.transaction) (key : Key) :
    FirstClearing (s.deleteRecord key).transaction := by
  rcases deleteRecord_cases s key with ⟨-, heq⟩ | ⟨map, value, -, -, heq⟩
  · rw [heq]
    exact firstClearing_recordValueChanged h key none
  · rw [heq]
    exact firstClearing_recordValueChanged h key (some value)

section

variable (s : OpenStore Key KeyPath)

omit [LinearOrder Key] in
theorem firstClearing_clear : FirstClearing s.clear.transaction := by
  unfold clear
  split_ifs with hclr
  · intro hnone
    simp [show s.transaction.clearedKeyValueMap = none from hnone] at hclr
  · intro hnone
    cases hnone

omit [LinearOrder Key] in
theorem indexes_clear_eq :
    s.clear.store.indexes = mapValues (fun ref index =>
      if (s.transaction.clearedIndexValueStores.lookup ref).isSome then index
      else { index with records := none }) s.store.indexes := by
  unfold clear
  split_ifs <;> rfl

theorem indexes_clear : s.clear.store.plain.indexes = s.store.plain.indexes := by
  funext ref
  simp only [plain, indexes_clear_eq, lookup_mapValues, Option.map_map]
  congr 1
  funext index
  split_ifs <;> rfl

end

theorem clear_spec (h : s.store.Consistent bindings) (hfst : FirstClearing s.transaction)
    (hguard : s.transaction.clearedKeyValueMap = none ∨ ∀ key, s.store.recordAt key = none) :
    s.clear.store.Consistent bindings ∧ s.clear.store.plain = s.store.plain.apply .clear := by
  have hrecAt : s.clear.store.recordAt = fun _ => none := by
    unfold clear
    split_ifs with hclr
    · obtain hnone | hempty := hguard
      · simp [hnone] at hclr
      · exact funext hempty
    · rfl
  have hidxs := indexes_clear_eq s
  have hplain := indexes_clear s
  have hrecs : s.clear.store.records = ∅ := by
    ext record
    simp [records, hrecAt]
  refine ⟨⟨?_, ?_, h.identifiers_of_plain hplain⟩, PlainStore.ext hrecAt hplain⟩
  · unfold clear
    split_ifs
    · exact h.ordered
    · rfl
  · intro ref index hget
    rw [hrecs]
    rw [hidxs, lookup_mapValues] at hget
    obtain ⟨old, hold, rfl⟩ := map_eq_some_iff.mp hget
    split_ifs with hclr
    · obtain hnone | hempty := hguard
      · rw [hfst hnone] at hclr
        simp at hclr
      · have hold' := h.files ref old hold
        have hrecs' : s.store.records = ∅ := by
          ext record
          simp [records, hempty]
        rwa [hrecs'] at hold'
    · exact MemoryIndex.files_create old.info

variable {ref : IndexRef} {info : IDBIndexInfo KeyPath}
  {order : IterationOrder (Key × ThreadSafeDataBuffer)}

theorem createIndex_eq_of_ok (hok : (s.createIndex bindings order ref info).2 = none) :
    (s.store.populateIndexWithExistingRecords bindings order (MemoryIndex.create info)).2 = none ∧
      (s.createIndex bindings order ref info).1 = s.registerIndex ref
        (s.store.populateIndexWithExistingRecords bindings order (MemoryIndex.create info)).1 := by
  unfold createIndex at hok ⊢
  split_ifs at hok ⊢ with hver
  dsimp only at hok ⊢
  split at hok
  · cases hok
  · rename_i herr
    exact ⟨herr, rfl⟩

/-- A new index is right when filling it does not stop before a record with an index key. -/
theorem createIndex_of_ok (h : s.store.Consistent bindings)
    (hid : s.store.indexForIdentifier info.identifier = none)
    (hguard : ∀ map, s.store.keyValueStore = some map →
      NoKeysPastSkipped bindings info (order.order (pairs map)))
    (hok : (s.createIndex bindings order ref info).2 = none) :
    s.Applies bindings (.createIndex ref info order) (s.createIndex bindings order ref info).1 := by
  obtain ⟨hpopulate, heq⟩ := createIndex_eq_of_ok hok
  obtain ⟨hidx, hinfo⟩ :=
    files_populateIndexWithExistingRecords (MemoryIndex.files_create info) hguard hpopulate
  rw [heq]
  refine ⟨⟨h.ordered, ?_, ?_⟩, PlainStore.ext rfl ?_, rfl⟩
  · intro other index hoth
    simp only [registerIndex, lookup_insert_eq] at hoth
    split_ifs at hoth
    · rw [← some.inj hoth]
      exact hidx
    · exact h.files other index hoth
  · intro other other' index index' hoth hoth' hsame
    simp only [registerIndex, lookup_insert_eq] at hoth hoth'
    split_ifs at hoth hoth' with hnew hnew' hnew'
    · rw [hnew, hnew']
    · rw [← some.inj hoth, hinfo] at hsame
      exact absurd hsame.symm (identifier_ne_of_indexForIdentifier_none hid hoth')
    · rw [← some.inj hoth', hinfo] at hsame
      exact absurd hsame (identifier_ne_of_indexForIdentifier_none hid hoth)
    · exact h.identifiers other other' index index' hoth hoth' hsame
  · funext other
    simp only [plain, PlainStore.apply, registerIndex, lookup_insert_eq, update_apply]
    split_ifs with hnew
    · rw [map_some, hinfo]
      rfl
    · rfl

theorem deleteIndex_of_ok (h : s.store.Consistent bindings) {identifier : ℕ}
    (hok : (s.deleteIndex identifier).2 = none) :
    s.Applies bindings (.deleteIndex identifier) (s.deleteIndex identifier).1 := by
  unfold deleteIndex at hok ⊢
  split_ifs at hok ⊢ with hver
  cases hfind : s.store.indexForIdentifier identifier with
  | none => simp [hfind] at hok
  | some entry =>
    obtain ⟨ref, index⟩ := entry
    obtain ⟨hget, hid⟩ := lookup_of_indexForIdentifier hfind
    refine ⟨h.restrict rfl rfl fun other index' hoth => ?_, PlainStore.ext rfl ?_, rfl⟩
    · rw [lookup_erase_eq] at hoth
      split_ifs at hoth
      exact hoth
    · funext other
      simp only [plain, PlainStore.apply, lookup_erase_eq]
      split_ifs with heq
      · rw [heq, hget]
        simp [Option.filter, hid]
      · cases hoth : s.store.indexes.lookup other with
        | none => rfl
        | some index' =>
          have hne : index'.info.identifier ≠ identifier := fun hsame =>
            heq (h.identifiers other ref index' index hoth hget (hsame.trans hid.symm))
          simp [Option.filter, hne]

/-- A clearing is the first one or finds no record, and a new index misses no key behind an
undefined or null value. -/
def Guard (bindings : Bindings Key KeyPath Value) (s : OpenStore Key KeyPath) :
    StoreOperation Key KeyPath → Prop
  | .clear => s.transaction.clearedKeyValueMap = none ∨ ∀ key, s.store.recordAt key = none
  | .createIndex _ info iteration => ∀ map, s.store.keyValueStore = some map →
      NoKeysPastSkipped bindings info (iteration.order (pairs map))
  | _ => True

structure Refines (bindings : Bindings Key KeyPath Value) (s : OpenStore Key KeyPath)
    (model : PlainStore Key KeyPath) : Prop where
  consistent : s.store.Consistent bindings
  plain : s.store.plain = model
  firstClearing : FirstClearing s.transaction

theorem refines_step {t : OpenStore Key KeyPath} {model : PlainStore Key KeyPath}
    {operation : StoreOperation Key KeyPath} (h : s.Refines bindings model)
    (hguard : s.Guard bindings operation) (hstep : s.step bindings operation = some t) :
    t.Refines bindings (model.apply operation) := by
  obtain ⟨hcons, rfl, hfst⟩ := h
  cases operation with
  | addRecord key value order =>
    simp only [step, ite_none_right_eq_some, some.injEq] at hstep
    obtain ⟨⟨hfree, hok⟩, rfl⟩ := hstep
    obtain ⟨hcons', hplain, htx⟩ := addRecord_of_ok hcons hfree hok
    exact ⟨hcons', hplain, htx ▸ hfst⟩
  | deleteRecord key =>
    cases hstep
    exact ⟨consistent_deleteRecord hcons key, plain_deleteRecord s key,
      firstClearing_deleteRecord hfst key⟩
  | deleteRange range =>
    cases hstep
    obtain ⟨hcons', hplain⟩ := deleteRange_spec hcons range
    exact ⟨hcons', hplain, deleteRange_keeps (P := fun s => FirstClearing s.transaction)
      (fun _ key h => firstClearing_deleteRecord h key) hfst range⟩
  | clear =>
    cases hstep
    obtain ⟨hcons', hplain⟩ := clear_spec hcons hfst hguard
    exact ⟨hcons', hplain, firstClearing_clear s⟩
  | createIndex ref info order =>
    simp only [step, ite_none_right_eq_some, some.injEq] at hstep
    obtain ⟨⟨-, hid, -, hok⟩, rfl⟩ := hstep
    obtain ⟨hcons', hplain, htx⟩ :=
      createIndex_of_ok hcons (isNone_iff_eq_none.mp hid) hguard hok
    exact ⟨hcons', hplain, htx ▸ hfst⟩
  | deleteIndex identifier =>
    simp only [step, ite_none_right_eq_some, some.injEq] at hstep
    obtain ⟨hok, rfl⟩ := hstep
    obtain ⟨hcons', hplain, htx⟩ := deleteIndex_of_ok hcons hok
    exact ⟨hcons', hplain, htx ▸ hfst⟩

/-- Past an undefined or null record, a new index misses every record with an index key. -/
theorem noKeysPastSkipped_of_createIndex (hok : (s.createIndex bindings order ref info).2 = none)
    (hafter : (s.createIndex bindings order ref info).1.store.Consistent bindings)
    (hinfo : (s.createIndex bindings order ref info).1.store.plain.indexes ref = some info)
    {map : HashMap Key ThreadSafeDataBuffer} (hmap : s.store.keyValueStore = some map) :
    NoKeysPastSkipped bindings info (order.order (pairs map)) := by
  rw [(createIndex_eq_of_ok hok).2] at hafter hinfo
  have hfiles := hafter.files ref _ (AList.lookup_insert ..)
  simp only [plain, registerIndex, AList.lookup_insert, map_some, some.injEq] at hinfo
  intro before skipped after heq hskipped record hrec
  by_contra hkeys
  obtain ⟨indexKey, hindexKey⟩ := exists_mem_of_ne_nil _ hkeys
  have hmem : record ∈ order.order (pairs map) := by
    rw [heq]
    exact mem_append_right _ (mem_cons_of_mem _ hrec)
  have hfiled := (hfiles.mem_valueKeys indexKey record.1).mpr
    ⟨record.2, (mem_order_iff order hmap).mp hmem, by rw [hinfo]; exact hindexKey⟩
  rw [populateIndexWithExistingRecords, hmap] at hfiled
  simp only [heq] at hfiled
  have hnodup := nodup_order_fst order map
  rcases valueKeys_populateIndex_of_skipped (MemoryIndex.files_create info) hskipped hfiled with
    ⟨_, hempty, -⟩ | hbefore
  · cases hempty
  · rw [heq, map_append, nodup_append] at hnodup
    exact hnodup.2.2 record.1 hbefore record.1
      (mem_map_of_mem (mem_cons_of_mem _ hrec)) rfl

/-- An operation after which the store is still right met the guard. -/
theorem guard_of_refines_step {t : OpenStore Key KeyPath} {operation : StoreOperation Key KeyPath}
    (hstep : s.step bindings operation = some t) (hcons : t.store.Consistent bindings)
    (hplain : t.store.plain = s.store.plain.apply operation) : s.Guard bindings operation := by
  cases operation with
  | clear =>
    cases hstep
    by_cases hclr : s.transaction.clearedKeyValueMap = none
    · exact .inl hclr
    · right
      intro key
      have hkept : s.clear.store.recordAt = s.store.recordAt := by
        unfold clear
        rw [if_pos (isSome_iff_ne_none.mpr hclr)]
        rfl
      rw [← hkept]
      exact congrFun (congrArg PlainStore.records hplain) key
  | createIndex ref info order =>
    simp only [step, ite_none_right_eq_some, some.injEq] at hstep
    obtain ⟨⟨-, -, -, hok⟩, rfl⟩ := hstep
    intro map hmap
    apply noKeysPastSkipped_of_createIndex hok hcons _ hmap
    rw [hplain]
    exact Function.update_self ..
  | addRecord key value order => trivial
  | deleteRecord key => trivial
  | deleteRange range => trivial
  | deleteIndex identifier => trivial

/-- The store is right in every state of a run: it is consistent and stands for the plain map
that the operations so far describe. -/
def RefinesThroughout (bindings : Bindings Key KeyPath Value) (s : OpenStore Key KeyPath)
    (operations : List (StoreOperation Key KeyPath)) : Prop :=
  ∀ before after t, operations = before ++ after →
    run (OpenStore.step bindings) s before = some t →
      t.store.Consistent bindings ∧ t.store.plain = before.foldl PlainStore.apply s.store.plain

/-- A run of successful operations in a new transaction keeps the store right throughout exactly
when every operation of it meets the guard. -/
theorem refinesThroughout_iff_guarded {s t : OpenStore Key KeyPath}
    {operations : List (StoreOperation Key KeyPath)} {isVersionChange : Bool}
    (hconsistent : s.store.Consistent bindings)
    (hstart : s.transaction = .start isVersionChange s.store.keyGeneratorValue)
    (hrun : run (OpenStore.step bindings) s operations = some t) :
    RefinesThroughout bindings s operations ↔
      Guarded (OpenStore.step bindings) (Guard bindings) s operations := by
  constructor
  · intro h before operation after u heq hbefore
    obtain ⟨v, hv, hrest⟩ := (run_append_eq_some _).mp (heq ▸ hrun)
    cases hbefore.symm.trans hv
    obtain ⟨w, hstep, -⟩ := (run_cons_eq_some _).mp hrest
    obtain ⟨-, hplain⟩ := h before (operation :: after) u heq hbefore
    have hinit : run (OpenStore.step bindings) s (before ++ [operation]) = some w :=
      (run_append_eq_some _).mpr ⟨u, hbefore, (run_cons_eq_some _).mpr ⟨w, hstep, rfl⟩⟩
    obtain ⟨hcons', hplain'⟩ :=
      h (before ++ [operation]) after w (by rw [heq, append_assoc, singleton_append]) hinit
    apply guard_of_refines_step hstep hcons'
    rw [hplain', hplain, foldl_append, foldl_cons, foldl_nil]
  · intro hguard before after u heq hbefore
    have hfst : FirstClearing s.transaction := fun _ => by rw [hstart]; rfl
    have hrefs := simulation_of_guarded (OpenStore.step bindings) PlainStore.apply
      (fun s model operation t => refines_step (s := s) (t := t))
      (⟨hconsistent, rfl, hfst⟩ : s.Refines bindings s.store.plain) (heq ▸ hguard).of_append hbefore
    exact ⟨hrefs.consistent, hrefs.plain⟩

/-- A store whose keys are told apart by the hash and by the comparison alike is right throughout a
run exactly when every operation meets the guard. -/
theorem refinesThroughout_iff {keys : KeySpace} {bindings : Bindings keys.Key KeyPath Value}
    {s t : OpenStore keys.Key KeyPath} {operations : List (StoreOperation keys.Key KeyPath)}
    {isVersionChange : Bool} (hconsistent : s.store.Consistent bindings)
    (hstart : s.transaction = .start isVersionChange s.store.keyGeneratorValue)
    (hrun : run (OpenStore.step bindings) s operations = some t) :
    RefinesThroughout bindings s operations ↔
      Guarded (OpenStore.step bindings) (Guard bindings) s operations :=
  refinesThroughout_iff_guarded hconsistent hstart hrun

def keyOne : KeySpace.unsignedNumbers.Key := KeySpace.unsignedNumber 0x3ff0000000000000 (by decide)

def keyTwo : KeySpace.unsignedNumbers.Key := KeySpace.unsignedNumber 0x4000000000000000 (by decide)

def keylessBindings : Bindings KeySpace.unsignedNumbers.Key Unit Unit where
  isValid _ := true
  setArrayValue _ := keyOne
  deserialize _ := .value ()
  createKeyPathArray _ _ := []

def emptyStore : OpenStore KeySpace.unsignedNumbers.Key Unit where
  store := ⟨1, "store", 1, none, none, ∅⟩
  transaction := .start true 1

theorem consistent_emptyStore : emptyStore.store.Consistent keylessBindings where
  ordered := rfl
  files := fun ref index h => by simp [emptyStore] at h
  identifiers := fun ref ref' index index' h => by simp [emptyStore] at h

theorem refinesThroughout_iff_cleared_once :
    RefinesThroughout keylessBindings emptyStore [.addRecord keyOne (some [7]) .insertion, .clear] ↔
      Guarded (OpenStore.step keylessBindings) (Guard keylessBindings) emptyStore
        [.addRecord keyOne (some [7]) .insertion, .clear] :=
  refinesThroughout_iff consistent_emptyStore rfl rfl

/-- The second clearing leaves the record that was added after the first one. -/
theorem not_refinesThroughout_cleared_twice : emptyStore.store.Consistent keylessBindings ∧
      emptyStore.transaction = .start true emptyStore.store.keyGeneratorValue ∧
      ¬ RefinesThroughout keylessBindings emptyStore
        [.addRecord keyOne (some [7]) .insertion, .clear, .addRecord keyTwo (some [8]) .insertion, .clear] := by
  refine ⟨consistent_emptyStore, rfl, fun h => ?_⟩
  obtain ⟨-, hplain⟩ := h _ [] _ (append_nil _).symm rfl
  have hrec := congrFun (congrArg PlainStore.records hplain) keyTwo
  cases hrec

end OpenStore

end WebKit.IndexedDB
