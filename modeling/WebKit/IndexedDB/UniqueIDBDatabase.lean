import WebKit.IndexedDB.MemoryBackingStore
import WebKit.IndexedDB.RefusedRecords

/-!
A put or an add as the database performs it on an object store: a key is
generated if none is given, the request is turned down if the key may not be
overwritten or cannot be put into the value, and then the old record is deleted
and the new one added.

A request that is turned down on the way sets the key generator back. A record
that an index refuses is refused when the old record of its key is already gone,
and nothing brings that one back.
-/

namespace WebKit.IndexedDB

open HashMaps

variable {Key KeyPath Value : Type*}

inductive ObjectStoreOverwriteMode where
  | overwrite
  | overwriteForCursor
  | noOverwrite
  deriving DecidableEq, Repr

inductive IDBDatabaseException where
  | invalidStateError
  | constraintError
  | unknownError
  deriving DecidableEq, Repr

structure RequestError where
  code : IDBDatabaseException
  message : String
  deriving DecidableEq, Repr

structure IDBObjectStoreInfo (KeyPath : Type*) where
  autoIncrement : Bool
  keyPath : Option KeyPath

structure RequestBindings (Key KeyPath Value : Type*) extends Bindings Key KeyPath Value where
  setNumberValue : ℕ → Key
  isValid_setNumberValue : ∀ number, isValid (setNumberValue number) = true
  /-- The integral part of a number key. -/
  number : Key → Option ℕ
  injectIDBKeyIntoScriptValue : Key → JSValue Value → KeyPath → Option (JSValue Value)
  /-- The serialized value, unless that raises an exception. -/
  serialize : JSValue Value → Option (List UInt8)

structure PutRequest (bindings : RequestBindings Key KeyPath Value) where
  objectStoreInfo : Option (IDBObjectStoreInfo KeyPath)
  /-- The transaction is known to the backing store. -/
  hasTransaction : Bool
  keyData : Key
  originalRecordValue : ThreadSafeDataBuffer
  overwriteMode : ObjectStoreOverwriteMode
  iteration : IterationOrder IndexRef
  valid : ∀ info, objectStoreInfo = some info → info.autoIncrement = false →
    bindings.isValid keyData = true

namespace PutRequest

variable [LinearOrder Key] {bindings : RequestBindings Key KeyPath Value}
  (request : PutRequest bindings)

variable (info : IDBObjectStoreInfo KeyPath)

def recordValue (usedKey : Key) (usedKeyIsGenerated : Bool) :
    Except RequestError ThreadSafeDataBuffer :=
  match usedKeyIsGenerated, info.keyPath with
  | true, some keyPath =>
    match bindings.deserializeIDBValueToJSValue request.originalRecordValue with
    | .undefined =>
      .error ⟨.constraintError, "Unable to deserialize record value for record key injection"⟩
    | value =>
      match bindings.injectIDBKeyIntoScriptValue usedKey value keyPath with
      | none => .error ⟨.constraintError, "Unable to inject record key into record value"⟩
      | some injected =>
        match bindings.serialize injected with
        | none =>
          .error ⟨.constraintError, "Unable to serialize record value after injecting record key"⟩
        | some bytes => .ok (some bytes)
  | _, _ => .ok request.originalRecordValue

def replace (usedKey : Key) (value : ThreadSafeDataBuffer) (s : OpenStore Key KeyPath) :
    OpenStore Key KeyPath × Option IDBError :=
  (s.deleteRange bindings.toBindings (.single usedKey)).addRecord bindings.toBindings
    request.iteration usedKey value

def store (usedKey : Key) (usedKeyIsGenerated : Bool) (s : OpenStore Key KeyPath) :
    OpenStore Key KeyPath × Option RequestError :=
  if request.overwriteMode = .noOverwrite ∧ s.store.recordAt usedKey ≠ none then
    (s, some ⟨.constraintError, "Key already exists in the object store"⟩)
  else
    match request.recordValue info usedKey usedKeyIsGenerated with
    | .error error => (s, some error)
    | .ok value =>
      if !request.hasTransaction then
        (s, some ⟨.unknownError, "No backing store transaction found to delete from"⟩)
      else
        let result := request.replace usedKey value s
        match result.2 with
        | some .constraintError => (result.1, some ⟨.constraintError, ""⟩)
        | none =>
          if request.overwriteMode ≠ .overwriteForCursor ∧ info.autoIncrement = true then
            ((bindings.number request.keyData).elim result.1 result.1.maybeUpdateKeyGeneratorNumber,
              none)
          else (result.1, none)

def performPutOrAdd (s : OpenStore Key KeyPath) :
    OpenStore Key KeyPath × Option RequestError × Option Key :=
  match request.objectStoreInfo with
  | none =>
    (s, some ⟨.invalidStateError, "Object store cannot be found in the backing store"⟩, none)
  | some info =>
    if info.autoIncrement = true ∧ bindings.isValid request.keyData = false then
      let keyNumber := s.store.keyGeneratorValue
      if keyNumber > maxGeneratedKeyValue then
        (s, some ⟨.constraintError,
          "Cannot generate new key value over 2^53 for object store operation"⟩, none)
      else
        let usedKey := bindings.setNumberValue keyNumber
        let result := request.store info usedKey true s.generateKeyNumber
        match result.2 with
        | some error => (result.1.setKeyGeneratorValue keyNumber, some error, some usedKey)
        | none => (result.1, none, some usedKey)
    else
      let result := request.store info request.keyData false s
      (result.1, result.2, some request.keyData)

end PutRequest

namespace MemoryIndex

variable [LinearOrder Key] {bindings : Bindings Key KeyPath Value}

/-- Without the entries of a record, an index refuses a value that shares a key with another one. -/
theorem refuses_removeEntriesWithValueKey (index : MemoryIndex Key KeyPath) (key : Key)
    (value : ThreadSafeDataBuffer) :
    (index.removeEntriesWithValueKey key).refuses bindings value ↔
      index.info.unique ∧ ∃ indexKey ∈ indexKeys bindings index.info value,
        ∃ other ∈ index.valueKeys indexKey, other ≠ key := by
  rw [refuses, Bool.and_eq_true, List.any_eq_true]
  refine and_congr Iff.rfl (exists_congr fun indexKey => and_congr Iff.rfl ?_)
  have hcont : (index.removeEntriesWithValueKey key).valueStore.contains indexKey ↔
      ((index.valueKeys indexKey).erase key).Nonempty := by
    obtain ⟨info, records⟩ := index
    cases records with
    | none => simp [removeEntriesWithValueKey, valueStore, valueKeys, IndexValueStore.create,
        IndexValueStore.contains, IndexValueStore.valueKeys]
    | some store => exact store.contains_removeEntriesWithValueKey key indexKey
  rw [hcont]
  exact exists_congr fun other => Finset.mem_erase.trans and_comm

end MemoryIndex

namespace PutRequest

variable [LinearOrder Key] {bindings : RequestBindings Key KeyPath Value}
  (request : PutRequest bindings)

def Replaces (info : IDBObjectStoreInfo KeyPath) (usedKey : Key) (usedKeyIsGenerated : Bool)
    (s : OpenStore Key KeyPath) : Prop :=
  request.overwriteMode ≠ .noOverwrite ∧ request.hasTransaction = true ∧
    s.store.recordAt usedKey ≠ none ∧
    ∃ value, request.recordValue info usedKey usedKeyIsGenerated = .ok value ∧
      ∃ ref index, s.store.indexes.lookup ref = some index ∧ index.info.unique = true ∧
        ∃ indexKey ∈ indexKeys bindings.toBindings index.info value,
          ∃ other ∈ index.valueKeys indexKey, other ≠ usedKey

section Store

variable {request} {s : OpenStore Key KeyPath} {usedKey : Key} {value : ThreadSafeDataBuffer}
  {info : IDBObjectStoreInfo KeyPath} {usedKeyIsGenerated : Bool}
  (hvalid : bindings.isValid usedKey = true)

include hvalid

theorem replace_eq : request.replace usedKey value s =
    (s.deleteRecord usedKey).addRecord bindings.toBindings request.iteration usedKey value := by
  simp [replace, OpenStore.deleteRange, IDBKeyRangeData.single, IDBKeyRangeData.isExactlyOneKey, hvalid]

/-- Over a record of the key, an index refuses the new one when it does so without that record. -/
theorem replace_error_iff (huniq : s.store.UniqueAsMade) (hrec : s.store.recordAt usedKey ≠ none) :
    (request.replace usedKey value s).2 ≠ none ↔
      ∃ ref index, s.store.indexes.lookup ref = some index ∧ index.info.unique ∧
        ∃ indexKey ∈ indexKeys bindings.toBindings index.info value,
          ∃ other ∈ index.valueKeys indexKey, other ≠ usedKey := by
  have hget : ∀ ref, (s.deleteRecord usedKey).store.indexes.lookup ref =
      (s.store.indexes.lookup ref).map fun index => index.removeEntriesWithValueKey usedKey := by
    rcases OpenStore.deleteRecord_cases s usedKey with ⟨hnone, -⟩ | ⟨map, _, -, -, heq⟩
    · exact absurd hnone hrec
    · rw [heq]
      exact fun ref => lookup_mapValues ..
  rw [replace_eq hvalid, OpenStore.addRecord_error_iff]
  · constructor
    · rintro ⟨ref, index', hidx', hrefs⟩
      rw [hget] at hidx'
      obtain ⟨index, hidx, rfl⟩ := Option.map_eq_some_iff.mp hidx'
      exact ⟨ref, index, hidx, (index.refuses_removeEntriesWithValueKey ..).mp hrefs⟩
    · rintro ⟨ref, index, hidx, hrefs⟩
      refine ⟨ref, index.removeEntriesWithValueKey usedKey, by rw [hget, hidx, Option.map_some], ?_⟩
      exact (index.refuses_removeEntriesWithValueKey ..).mpr hrefs
  · intro ref index' hidx'
    rw [hget] at hidx'
    obtain ⟨index, hidx, rfl⟩ := Option.map_eq_some_iff.mp hidx'
    have hsame := huniq ref index hidx
    obtain ⟨info, records⟩ := index
    cases records with
    | none => rfl
    | some store => exact hsame

/-- A refused replacement loses the old record, and keeps the key generator. -/
theorem replace_of_error (hrefuse : (request.replace usedKey value s).2 ≠ none) :
    (request.replace usedKey value s).1.store.recordAt = Function.update s.store.recordAt usedKey none ∧
      (request.replace usedKey value s).1.store.keyGeneratorValue = s.store.keyGeneratorValue := by
  rw [replace_eq hvalid] at hrefuse ⊢
  have hstore := congrArg Prod.fst (OpenStore.stored_addRecord_of_error hrefuse)
  rw [OpenStore.recordAt_deleteRecord, Function.update_idem] at hstore
  exact ⟨hstore, (OpenStore.addRecord_keeps ..).1.keyGeneratorValue.trans
    (OpenStore.sameHeader_deleteRecord s usedKey).keyGeneratorValue⟩

omit hvalid in
/-- A request fails before it has changed anything, or because an index refuses its record. -/
theorem store_of_error (herr : (request.store info usedKey usedKeyIsGenerated s).2 ≠ none) :
    (request.store info usedKey usedKeyIsGenerated s).1 = s ∨
      ∃ value, (request.overwriteMode = .noOverwrite → s.store.recordAt usedKey = none) ∧
        request.hasTransaction ∧
        request.recordValue info usedKey usedKeyIsGenerated = .ok value ∧
        (request.replace usedKey value s).2 ≠ none ∧
        (request.store info usedKey usedKeyIsGenerated s).1 = (request.replace usedKey value s).1 := by
  unfold store at herr ⊢
  by_cases hmode : request.overwriteMode = .noOverwrite ∧ s.store.recordAt usedKey ≠ none
  · rw [if_pos hmode]
    exact Or.inl rfl
  rw [if_neg hmode] at herr ⊢
  cases hval : request.recordValue info usedKey usedKeyIsGenerated with
  | error error => exact Or.inl rfl
  | ok value =>
    rw [hval] at herr
    by_cases htx : request.hasTransaction
    · simp only [htx, Bool.not_true, Bool.false_eq_true, if_false] at herr ⊢
      cases hadd : (request.replace usedKey value s).2 with
      | none =>
        simp only [hadd] at herr
        split_ifs at herr <;> exact absurd rfl herr
      | some error =>
        refine Or.inr ⟨value, fun h => not_not.mp fun hrec => hmode ⟨h, hrec⟩, trivial, rfl, ?_, rfl⟩
        exact hadd ▸ Option.some_ne_none error
    · simp [htx]

theorem recordAt_store_iff (huniq : s.store.UniqueAsMade) :
    ((request.store info usedKey usedKeyIsGenerated s).2 ≠ none →
      (request.store info usedKey usedKeyIsGenerated s).1.store.recordAt = s.store.recordAt) ↔
      ¬ request.Replaces info usedKey usedKeyIsGenerated s := by
  constructor
  · rintro h ⟨hmode, htx, hrec, value, hval, hshares⟩
    have hrefuse := (@replace_error_iff _ _ _ _ _ request _ _ _ hvalid huniq hrec).mpr hshares
    obtain ⟨error, herr⟩ := Option.ne_none_iff_exists'.mp hrefuse
    have heq : request.store info usedKey usedKeyIsGenerated s =
        ((request.replace usedKey value s).1, some ⟨.constraintError, ""⟩) := by
      simp [store, hmode, hval, htx, herr]
    rw [heq, (replace_of_error hvalid hrefuse).1, Function.update_eq_self_iff] at h
    exact hrec (h (Option.some_ne_none _)).symm
  · intro h herr
    rcases store_of_error herr with heq | ⟨value, hfree, htx, hval, hrefuse, heq⟩
    · rw [heq]
    · rw [heq, (replace_of_error hvalid hrefuse).1, Function.update_eq_self_iff]
      by_contra hnone
      have hrec := Ne.symm hnone
      exact h ⟨fun hmode => hrec (hfree hmode), htx, hrec, value, hval,
        (replace_error_iff hvalid huniq hrec).mp hrefuse⟩

end Store

def LosesRecord (s : OpenStore Key KeyPath) : Prop :=
  ∃ info, request.objectStoreInfo = some info ∧
    if info.autoIncrement = true ∧ bindings.isValid request.keyData = false then
      s.store.keyGeneratorValue ≤ maxGeneratedKeyValue ∧
        request.Replaces info (bindings.setNumberValue s.store.keyGeneratorValue) true s
    else request.Replaces info request.keyData false s

/-- A failed request leaves the records and the key generator as they were exactly when it does not
replace a record whose successor shares a unique index key with another record. -/
theorem performPutOrAdd_failure_keeps_iff {s : OpenStore Key KeyPath}
    (hunique : s.store.UniqueAsMade) :
    ((request.performPutOrAdd s).2.1 ≠ none →
      (request.performPutOrAdd s).1.store.recordAt = s.store.recordAt ∧
      (request.performPutOrAdd s).1.store.keyGeneratorValue = s.store.keyGeneratorValue) ↔
      ¬ request.LosesRecord s := by
  unfold performPutOrAdd LosesRecord
  cases hinfo : request.objectStoreInfo with
  | none => simp
  | some info =>
    simp only [Option.some.injEq, exists_eq_left']
    split_ifs with hgenerate hover
    · simp [Nat.not_le.mpr hover]
    · have hgenerated : s.generateKeyNumber = s.setKeyGeneratorValue (s.store.keyGeneratorValue + 1) :=
        if_neg hover
      have hvalid := bindings.isValid_setNumberValue s.store.keyGeneratorValue
      rw [hgenerated, and_iff_right (not_lt.mp hover)]
      refine Iff.trans ?_ (recordAt_store_iff
        (s := s.setKeyGeneratorValue (s.store.keyGeneratorValue + 1)) hvalid hunique)
      cases herr : (request.store info (bindings.setNumberValue s.store.keyGeneratorValue) true
          (s.setKeyGeneratorValue (s.store.keyGeneratorValue + 1))).2 with
      | none => exact iff_of_true (absurd rfl) (absurd rfl)
      | some error => exact ⟨fun h hne => (h hne).1, fun h hne => ⟨h hne, rfl⟩⟩
    · have hvalid : bindings.isValid request.keyData = true := by
        by_cases hinc : info.autoIncrement = true
        · exact Bool.eq_true_of_not_eq_false fun h => hgenerate ⟨hinc, h⟩
        · exact request.valid info hinfo (Bool.eq_false_of_not_eq_true hinc)
      refine Iff.trans (forall_congr' fun herr => ?_) (recordAt_store_iff hvalid hunique)
      refine and_iff_left ?_
      rcases store_of_error herr with heq | ⟨value, -, -, -, hrefuse, heq⟩
      · rw [heq]
      · rw [heq]
        exact (replace_of_error hvalid hrefuse).2

def numberBindings : RequestBindings ℕ Unit Unit where
  toBindings := OpenStore.sharedKeyBindings
  setNumberValue := id
  isValid_setNumberValue _ := rfl
  number := some
  injectIDBKeyIntoScriptValue _ value _ := some value
  serialize _ := some []

def putUnder (key : ℕ) (overwriteMode : ObjectStoreOverwriteMode) : PutRequest numberBindings where
  objectStoreInfo := some ⟨false, none⟩
  hasTransaction := true
  keyData := key
  originalRecordValue := some [3]
  overwriteMode
  iteration := .insertion
  valid _ _ _ := rfl

def twoRecords : OpenStore ℕ Unit :=
  (OpenStore.twoIndexes.addRecord OpenStore.sharedKeyBindings .insertion 2 (some [])).1

theorem performPutOrAdd_failure_keeps_putUnder_three :
    ((putUnder 3 .overwrite).performPutOrAdd twoRecords).1.store.recordAt =
        twoRecords.store.recordAt ∧
      ((putUnder 3 .overwrite).performPutOrAdd twoRecords).1.store.keyGeneratorValue =
        twoRecords.store.keyGeneratorValue := by
  refine ((putUnder 3 .overwrite).performPutOrAdd_failure_keeps_iff (s := twoRecords)
    OpenStore.uniqueAsMade_twoIndexes).mpr ?_ (by decide)
  rintro ⟨info, hinfo, hreplaces⟩
  cases hinfo
  rw [if_neg (by decide)] at hreplaces
  exact hreplaces.2.2.1 (by decide)

/-- The record of the key is lost when the unique index refuses its successor. -/
theorem performPutOrAdd_loses_record_two :
    ¬ (((putUnder 2 .overwrite).performPutOrAdd twoRecords).2.1 ≠ none →
      ((putUnder 2 .overwrite).performPutOrAdd twoRecords).1.store.recordAt =
        twoRecords.store.recordAt ∧
      ((putUnder 2 .overwrite).performPutOrAdd twoRecords).1.store.keyGeneratorValue =
        twoRecords.store.keyGeneratorValue) := by
  intro h
  have hrec := congrFun (h (by decide)).1 2
  revert hrec
  decide

end PutRequest

end WebKit.IndexedDB
