import WebKit.IndexedDB.StoreRestoration

/-!
The in-memory backing store of a database and the transaction that writes it.
Object stores are objects with addresses: a deleted one is unregistered but kept
by the transaction, which registers it again when it is aborted, and a new one is
unregistered then.

An abort brings the backing store back to what it was at the start of the
transaction, as long as no step of the transaction does one of the things that
the undo log has no place for.
-/

namespace WebKit.IndexedDB

open List HashMaps Runs
open Option hiding mem_map
open AList (lookup_insert_ne lookup_insert singleton)

variable {Key KeyPath Value : Type*}

abbrev StoreRef := ℕ

structure MemoryIDBBackingStore (Key KeyPath : Type*) where
  /-- The names of the object stores by identifier. -/
  databaseInfo : HashMap ℕ String
  /-- All object stores that are alive. -/
  objects : HashMap StoreRef (MemoryObjectStore Key KeyPath)
  /-- The object stores registered by identifier and name. -/
  objectStores : List StoreRef

structure DeletedIndex (Key KeyPath : Type*) where
  objectStore : StoreRef
  ref : IndexRef
  index : MemoryIndex Key KeyPath

structure MemoryBackingStoreTransaction (Key KeyPath : Type*) where
  isVersionChange : Bool
  originalDatabaseInfo : Option (HashMap ℕ String)
  objectStores : List StoreRef
  versionChangeAddedObjectStores : List StoreRef
  deletedObjectStores : HashMap String StoreRef
  deletedIndexes : HashMap String (DeletedIndex Key KeyPath)
  /-- What has been recorded for each object store. -/
  records : HashMap StoreRef (StoreTransaction Key)

structure OpenDatabase (Key KeyPath : Type*) where
  backingStore : MemoryIDBBackingStore Key KeyPath
  transaction : MemoryBackingStoreTransaction Key KeyPath

namespace MemoryIDBBackingStore

def beginTransaction (isVersionChange : Bool) (scope : List String)
    (backingStore : MemoryIDBBackingStore Key KeyPath) : OpenDatabase Key KeyPath :=
  let objectStores :=
    if isVersionChange then backingStore.objectStores
    else backingStore.objectStores.filter fun ref =>
      (backingStore.objects.lookup ref).any fun store => store.name ∈ scope
  { backingStore
    transaction :=
      { isVersionChange
        originalDatabaseInfo := if isVersionChange then some backingStore.databaseInfo else none
        objectStores
        versionChangeAddedObjectStores := []
        deletedObjectStores := ∅
        deletedIndexes := ∅
        records := tabulate (fun ref => StoreTransaction.start isVersionChange
          ((backingStore.objects.lookup ref).elim 1 MemoryObjectStore.keyGeneratorValue)) objectStores } }

def objectStoreForIdentifier (backingStore : MemoryIDBBackingStore Key KeyPath) (identifier : ℕ) :
    Option StoreRef :=
  backingStore.objectStores.find? fun ref =>
    (backingStore.objects.lookup ref).any fun store => store.identifier = identifier

end MemoryIDBBackingStore

namespace MemoryBackingStoreTransaction

variable (transaction : MemoryBackingStoreTransaction Key KeyPath)

/-- Remember a deleted index by its name, unless its object store will not be restored or the name
is taken. -/
def indexDeleted (storeName : String) (deleted : DeletedIndex Key KeyPath) :
    MemoryBackingStoreTransaction Key KeyPath :=
  if (transaction.deletedObjectStores.lookup storeName).any fun ref => ref ≠ deleted.objectStore then
    transaction
  else if (transaction.deletedIndexes.lookup deleted.index.info.name).isSome then transaction
  else
    { transaction with
      deletedIndexes := transaction.deletedIndexes.insert deleted.index.info.name deleted }

def addDeletedObjectStore (name : String) (ref : StoreRef) :
    MemoryBackingStoreTransaction Key KeyPath :=
  if (transaction.deletedObjectStores.lookup name).isSome then transaction
  else { transaction with deletedObjectStores := transaction.deletedObjectStores.insert name ref }

end MemoryBackingStoreTransaction

namespace OpenDatabase

variable [LinearOrder Key]

def openStore (db : OpenDatabase Key KeyPath) (ref : StoreRef) : Option (OpenStore Key KeyPath) :=
  if ref ∈ db.transaction.objectStores then
    (db.backingStore.objects.lookup ref).bind fun store =>
      (db.transaction.records.lookup ref).map fun transaction => ⟨store, transaction⟩
  else none

def setStore (db : OpenDatabase Key KeyPath) (ref : StoreRef) (s : OpenStore Key KeyPath) :
    OpenDatabase Key KeyPath :=
  { backingStore := { db.backingStore with objects := db.backingStore.objects.insert ref s.store }
    transaction := { db.transaction with records := db.transaction.records.insert ref s.transaction } }

end OpenDatabase

def IDBKeyRangeData.single (key : Key) : IDBKeyRangeData Key := ⟨false, some key, some key, false, false⟩

inductive DatabaseOperation (Key KeyPath : Type*) where
  | deleteRange (objectStore : ℕ) (range : IDBKeyRangeData Key)
  | putRecord (objectStore : ℕ) (key : Key) (value : ThreadSafeDataBuffer)
      (iteration : IterationOrder IndexRef)
  | clearObjectStore (objectStore : ℕ)
  | generateKeyNumber (objectStore : ℕ)
  | revertGeneratedKeyNumber (objectStore keyNumber : ℕ)
  | maybeUpdateKeyGeneratorNumber (objectStore newKeyNumber : ℕ)
  | createObjectStore (ref : StoreRef) (identifier : ℕ) (name : String)
  | deleteObjectStore (objectStore : ℕ)
  | createIndex (ref : IndexRef) (info : IDBIndexInfo KeyPath)
      (iteration : IterationOrder (Key × ThreadSafeDataBuffer))
  | deleteIndex (objectStore index : ℕ)

def maxGeneratedKeyValue : ℕ := 0x20000000000000

def OpenStore.generateKeyNumber [LinearOrder Key] (s : OpenStore Key KeyPath) : OpenStore Key KeyPath :=
  if s.store.keyGeneratorValue > maxGeneratedKeyValue then s
  else s.setKeyGeneratorValue (s.store.keyGeneratorValue + 1)

def OpenStore.maybeUpdateKeyGeneratorNumber [LinearOrder Key] (s : OpenStore Key KeyPath)
    (newKeyNumber : ℕ) : OpenStore Key KeyPath :=
  if newKeyNumber < s.store.keyGeneratorValue then s else s.setKeyGeneratorValue (newKeyNumber + 1)

namespace OpenDatabase

variable [LinearOrder Key] (db : OpenDatabase Key KeyPath) (identifier : ℕ)

def withObjectStore
    (operation : StoreRef → OpenStore Key KeyPath → Option (OpenDatabase Key KeyPath)) :
    Option (OpenDatabase Key KeyPath) :=
  match db.backingStore.objectStoreForIdentifier identifier with
  | none => some db
  | some ref => (db.openStore ref).bind (operation ref)

def updateObjectStore (operation : OpenStore Key KeyPath → Option (OpenStore Key KeyPath)) :
    Option (OpenDatabase Key KeyPath) :=
  db.withObjectStore identifier fun ref s => (operation s).map (db.setStore ref)

/-- The identifier of a new object store is not in use, and no other new object store of the
transaction has it. -/
def createObjectStore (ref : StoreRef) (identifier : ℕ) (name : String) :
    Option (OpenDatabase Key KeyPath) :=
  if (pairs db.backingStore.databaseInfo).any fun entry => entry.2 = name then some db
  else if db.transaction.isVersionChange = true ∧ ref ∉ db.backingStore.objects ∧
      (db.backingStore.objectStoreForIdentifier identifier).isNone ∧
      db.transaction.versionChangeAddedObjectStores.all (fun other =>
        (db.backingStore.objects.lookup other).all fun store => store.identifier ≠ identifier) then
    some
      { backingStore :=
          { databaseInfo := db.backingStore.databaseInfo.insert identifier name
            objects := db.backingStore.objects.insert ref ⟨identifier, name, 1, none, none, ∅⟩
            objectStores := db.backingStore.objectStores ++ [ref] }
        transaction := { db.transaction with
          objectStores := db.transaction.objectStores ++ [ref]
          versionChangeAddedObjectStores := db.transaction.versionChangeAddedObjectStores ++ [ref]
          records := db.transaction.records.insert ref (.start true 1) } }
  else none

def deleteAllIndexes (ref : StoreRef) (s : OpenStore Key KeyPath)
    (transaction : MemoryBackingStoreTransaction Key KeyPath) :
    OpenStore Key KeyPath × MemoryBackingStoreTransaction Key KeyPath :=
  (pairs s.store.indexes).foldl
    (fun state entry => (state.1.unregisterIndex entry.1,
      state.2.indexDeleted s.store.name ⟨ref, entry.1, entry.2⟩)) (s, transaction)

def deleteObjectStore : Option (OpenDatabase Key KeyPath) :=
  if (db.backingStore.databaseInfo.lookup identifier).isNone then some db
  else
    db.withObjectStore identifier fun ref s =>
      if db.transaction.isVersionChange then
        let result := deleteAllIndexes ref s db.transaction
        let db' := db.setStore ref result.1
        let transaction := { db'.transaction with deletedIndexes := result.2.deletedIndexes }
        some
          { backingStore := { db'.backingStore with
              databaseInfo := retain (fun name => name ≠ s.store.name) db.backingStore.databaseInfo
              objectStores := db.backingStore.objectStores.erase ref }
            transaction := { transaction.addDeletedObjectStore s.store.name ref with
              objectStores := db.transaction.objectStores.erase ref } }
      else none

variable (bindings : Bindings Key KeyPath Value)

def createIndex (db : OpenDatabase Key KeyPath) (ref : IndexRef) (info : IDBIndexInfo KeyPath)
    (iteration : IterationOrder (Key × ThreadSafeDataBuffer)) : Option (OpenDatabase Key KeyPath) :=
  db.updateObjectStore info.objectStoreIdentifier fun s =>
    if ref ∉ s.store.indexes ∧ ref ∉ s.transaction.clearedIndexValueStores ∧
        (s.store.indexForIdentifier info.identifier).isNone ∧ s.store.hasIndex info.name = false then
      some (s.createIndex bindings iteration ref info).1
    else none

def deleteIndex (objectStore index : ℕ) : Option (OpenDatabase Key KeyPath) :=
  db.withObjectStore objectStore fun ref s =>
    if db.transaction.isVersionChange then
      match s.store.indexForIdentifier index with
      | none => some db
      | some (indexRef, index) =>
        let db' := db.setStore ref (s.unregisterIndex indexRef)
        some { db' with
          transaction := db'.transaction.indexDeleted s.store.name ⟨ref, indexRef, index⟩ }
    else some db

/-- One step of the transaction. A step that an assertion of the code rules out has no result; a
step that fails with an error leaves the state that the code leaves. -/
def step (db : OpenDatabase Key KeyPath) :
    DatabaseOperation Key KeyPath → Option (OpenDatabase Key KeyPath)
  | .deleteRange objectStore range =>
    db.updateObjectStore objectStore fun s => some (s.deleteRange bindings range)
  | .putRecord objectStore key value iteration =>
    db.updateObjectStore objectStore fun s =>
      let s' := s.deleteRange bindings (.single key)
      if s'.store.recordAt key = none then some (s'.addRecord bindings iteration key value).1 else none
  | .clearObjectStore objectStore => db.updateObjectStore objectStore fun s => some s.clear
  | .generateKeyNumber objectStore =>
    db.updateObjectStore objectStore fun s => some s.generateKeyNumber
  | .revertGeneratedKeyNumber objectStore keyNumber =>
    db.updateObjectStore objectStore fun s => some (s.setKeyGeneratorValue keyNumber)
  | .maybeUpdateKeyGeneratorNumber objectStore newKeyNumber =>
    db.updateObjectStore objectStore fun s => some (s.maybeUpdateKeyGeneratorNumber newKeyNumber)
  | .createObjectStore ref identifier name => db.createObjectStore ref identifier name
  | .deleteObjectStore objectStore => db.deleteObjectStore objectStore
  | .createIndex ref info iteration => db.createIndex bindings ref info iteration
  | .deleteIndex objectStore index => db.deleteIndex objectStore index

end OpenDatabase

structure AbortOrders (Key KeyPath : Type*) where
  objectStores : IterationOrder StoreRef
  restore : StoreRef → RestoreOrders Key
  deletedIndexes : IterationOrder (String × DeletedIndex Key KeyPath)

namespace OpenDatabase

variable [LinearOrder Key] (bindings : Bindings Key KeyPath Value)

variable (orders : AbortOrders Key KeyPath)

def restoreObjectStore (records : HashMap StoreRef (StoreTransaction Key))
    (objects : HashMap StoreRef (MemoryObjectStore Key KeyPath)) (ref : StoreRef) :
    HashMap StoreRef (MemoryObjectStore Key KeyPath) :=
  match objects.lookup ref, records.lookup ref with
  | some store, some transaction =>
    objects.insert ref
      ((⟨store, { transaction with isAborting := true }⟩ : OpenStore Key KeyPath).restore bindings
        (orders.restore ref)).store
  | _, _ => objects

def restoreDeletedIndex (objects : HashMap StoreRef (MemoryObjectStore Key KeyPath))
    (entry : String × DeletedIndex Key KeyPath) :
    HashMap StoreRef (MemoryObjectStore Key KeyPath) :=
  match objects.lookup entry.2.objectStore with
  | none => objects
  | some store =>
    objects.insert entry.2.objectStore (store.maybeRestoreDeletedIndex bindings
      ((orders.restore entry.2.objectStore).records entry.2.ref) entry.2.ref entry.2.index)

def replaceIndexValueStores (db : OpenDatabase Key KeyPath) :
    HashMap StoreRef (MemoryObjectStore Key KeyPath) :=
  mapValues (fun ref store => match db.transaction.records.lookup ref with
    | some transaction =>
      (⟨store, { transaction with isAborting := true }⟩ :
        OpenStore Key KeyPath).replaceIndexValueStores.store
    | none => store) db.backingStore.objects

/-- An index that is not registered is emptied before it is filled again, so what it held is not
brought back. -/
def abort (db : OpenDatabase Key KeyPath) : MemoryIDBBackingStore Key KeyPath :=
  let transaction := db.transaction
  let deletedObjectStores := (pairs transaction.deletedObjectStores).map Prod.snd
  let objects := (orders.objectStores.order (transaction.objectStores ++ deletedObjectStores)).foldl
    (restoreObjectStore bindings orders transaction.records) db.replaceIndexValueStores
  { databaseInfo := transaction.originalDatabaseInfo.getD db.backingStore.databaseInfo
    objects := (orders.deletedIndexes.order (pairs transaction.deletedIndexes)).foldl
      (restoreDeletedIndex bindings orders) objects
    objectStores := (db.backingStore.objectStores.filter fun ref =>
      ref ∉ transaction.versionChangeAddedObjectStores) ++ deletedObjectStores }

end OpenDatabase

@[ext]
structure IndexContents (Key KeyPath : Type*) where
  info : IDBIndexInfo KeyPath
  valueKeys : Key → Finset Key
  orderedKeys : Finset Key

@[ext]
structure StoreContents (Key KeyPath : Type*) where
  identifier : ℕ
  name : String
  keyGeneratorValue : ℕ
  records : Key → Option ThreadSafeDataBuffer
  orderedKeys : Finset Key
  indexes : IndexRef → Option (IndexContents Key KeyPath)

@[ext]
structure DatabaseContents (Key KeyPath : Type*) where
  databaseInfo : HashMap ℕ String
  objectStores : StoreRef → Option (StoreContents Key KeyPath)

section Contents

variable [LinearOrder Key] {bindings : Bindings Key KeyPath Value}

def MemoryIndex.contents (index : MemoryIndex Key KeyPath) : IndexContents Key KeyPath :=
  ⟨index.info, index.valueKeys, index.valueStore.orderedKeys⟩

def MemoryObjectStore.contents (store : MemoryObjectStore Key KeyPath) : StoreContents Key KeyPath where
  identifier := store.identifier
  name := store.name
  keyGeneratorValue := store.keyGeneratorValue
  records := store.recordAt
  orderedKeys := store.orderedKeys.getD ∅
  indexes := fun ref => (store.indexes.lookup ref).map MemoryIndex.contents

def MemoryIDBBackingStore.contents (backingStore : MemoryIDBBackingStore Key KeyPath) :
    DatabaseContents Key KeyPath where
  databaseInfo := backingStore.databaseInfo
  objectStores := fun ref =>
    if ref ∈ backingStore.objectStores then
      (backingStore.objects.lookup ref).map MemoryObjectStore.contents
    else none

/-- Two indexes with the same definition that file the same records hold the same. -/
theorem MemoryIndex.Files.contents_eq {index index' : MemoryIndex Key KeyPath}
    {records : Set (Key × ThreadSafeDataBuffer)} (h : index.Files bindings records)
    (h' : index'.Files bindings records) (hinfo : index'.info = index.info) :
    index'.contents = index.contents := by
  have hvalueKeys : index'.valueKeys = index.valueKeys := by
    funext indexKey
    ext key
    rw [h.mem_valueKeys, h'.mem_valueKeys, hinfo]
  refine IndexContents.ext hinfo hvalueKeys ?_
  ext key
  show key ∈ index'.valueStore.orderedKeys ↔ key ∈ index.valueStore.orderedKeys
  rw [h.wellFormed.records.mem_orderedKeys_iff, h'.wellFormed.records.mem_orderedKeys_iff]
  exact iff_of_eq (congrArg Finset.Nonempty (congrFun hvalueKeys key))

/-- Two consistent stores with the same header, records and indexes hold the same. -/
theorem MemoryObjectStore.Consistent.contents_eq {store store' : MemoryObjectStore Key KeyPath}
    (h : store.Consistent bindings) (h' : store'.Consistent bindings)
    (hheader : OpenStore.SameHeader store' store) (hrecs : store'.recordAt = store.recordAt)
    (hidxs : store'.plain.indexes = store.plain.indexes) : store'.contents = store.contents := by
  refine StoreContents.ext hheader.identifier hheader.name hheader.keyGeneratorValue hrecs ?_ ?_
  · ext key
    show key ∈ store'.orderedKeys.getD ∅ ↔ key ∈ store.orderedKeys.getD ∅
    rw [h.mem_orderedKeys, h'.mem_orderedKeys, hrecs]
  · funext ref
    show (store'.indexes.lookup ref).map MemoryIndex.contents =
      (store.indexes.lookup ref).map MemoryIndex.contents
    have hset : store'.records = store.records := by
      simp only [MemoryObjectStore.records, hrecs]
    cases hget' : store'.indexes.lookup ref with
    | none =>
      have href := congrFun hidxs ref
      simp only [MemoryObjectStore.plain, hget', map_none] at href
      rw [map_eq_none_iff.mp href.symm]
    | some index' =>
      obtain ⟨index, hget, hinfo⟩ := MemoryObjectStore.lookup_info_eq hidxs hget'
      have hfiles' := h'.files ref index' hget'
      rw [hset] at hfiles'
      rw [hget, map_some, map_some, (h.files ref index hget).contents_eq hfiles' hinfo.symm]

end Contents

structure MemoryIDBBackingStore.Consistent [LinearOrder Key] (bindings : Bindings Key KeyPath Value)
    (backingStore : MemoryIDBBackingStore Key KeyPath) : Prop where
  nodup : backingStore.objectStores.Nodup
  objectStores : ∀ ref ∈ backingStore.objectStores, ∃ store,
    backingStore.objects.lookup ref = some store ∧ store.Consistent bindings
  names : ∀ ref ∈ backingStore.objectStores, ∀ ref' ∈ backingStore.objectStores, ∀ store store',
    backingStore.objects.lookup ref = some store → backingStore.objects.lookup ref' = some store' →
      store.name = store'.name → ref = ref'
  indexNames : ∀ ref ∈ backingStore.objectStores, ∀ store, backingStore.objects.lookup ref = some store →
    ∀ index index' i i', store.indexes.lookup i = some index → store.indexes.lookup i' = some index' →
      index.info.name = index'.info.name → i = i'

structure Recoverable [LinearOrder Key] (bindings : Bindings Key KeyPath Value)
    (original : MemoryObjectStore Key KeyPath) (ref : StoreRef) (s : OpenStore Key KeyPath)
    (deletedIndexes : HashMap String (DeletedIndex Key KeyPath)) : Prop where
  undoable : s.Undoable bindings original
  kept : ∀ indexRef index, original.indexes.lookup indexRef = some index →
    s.store.plain.indexes indexRef ≠ none ∨
      ∃ deleted, deletedIndexes.lookup index.info.name = some ⟨ref, indexRef, deleted⟩
  deleted : ∀ name deleted, deletedIndexes.lookup name = some deleted → deleted.objectStore = ref →
    name = deleted.index.info.name ∧ s.store.plain.indexes deleted.ref = none ∧
      original.plain.indexes deleted.ref = some deleted.index.info ∧
      Repopulates bindings deleted.index.info original.records

structure OpenDatabase.Invariant [LinearOrder Key] (bindings : Bindings Key KeyPath Value)
    (original : MemoryIDBBackingStore Key KeyPath) (scope : List StoreRef)
    (db : OpenDatabase Key KeyPath) : Prop where
  versionChange : db.transaction.isVersionChange = true →
    db.transaction.originalDatabaseInfo = some original.databaseInfo
  readWrite : db.transaction.isVersionChange = false →
    db.transaction.originalDatabaseInfo = none ∧ db.backingStore.databaseInfo = original.databaseInfo
  alive : ∀ ref, ref ∈ original.objectStores ∨
    ref ∈ db.transaction.versionChangeAddedObjectStores → ref ∈ db.backingStore.objects
  added : ∀ ref ∈ db.transaction.versionChangeAddedObjectStores, ref ∉ original.objectStores
  registered : ∀ ref ∈ db.backingStore.objectStores,
    ref ∈ original.objectStores ∨ ref ∈ db.transaction.versionChangeAddedObjectStores
  registeredNodup : db.backingStore.objectStores.Nodup
  kept : ∀ ref ∈ original.objectStores, ref ∈ db.backingStore.objectStores ∨
    ∃ name, db.transaction.deletedObjectStores.lookup name = some ref
  deleted : ∀ name ref, db.transaction.deletedObjectStores.lookup name = some ref →
    ref ∈ scope ∧ ref ∉ db.backingStore.objectStores ∧ ref ∉ db.transaction.objectStores ∧
      ∃ store, original.objects.lookup ref = some store ∧ store.name = name
  scopeNodup : db.transaction.objectStores.Nodup
  written : ∀ ref ∈ db.transaction.objectStores,
    ref ∈ scope ∨ ref ∈ db.transaction.versionChangeAddedObjectStores
  inScope : ∀ ref ∈ scope, ref ∈ db.transaction.objectStores ∨
    ∃ name, db.transaction.deletedObjectStores.lookup name = some ref
  outOfScope : ∀ ref ∈ original.objectStores, ref ∉ scope →
    db.backingStore.objects.lookup ref = original.objects.lookup ref ∧
      db.transaction.records.lookup ref = none
  deletedIndexes : ∀ name deleted, db.transaction.deletedIndexes.lookup name = some deleted →
    deleted.objectStore ∈ scope ∨ deleted.objectStore ∉ original.objectStores
  recoverable : ∀ ref ∈ scope, ∃ store s, original.objects.lookup ref = some store ∧
    db.backingStore.objects.lookup ref = some s.store ∧
    db.transaction.records.lookup ref = some s.transaction ∧
    Recoverable bindings store ref s db.transaction.deletedIndexes

namespace OpenDatabase

variable [LinearOrder Key] {bindings : Bindings Key KeyPath Value}
  {original : MemoryIDBBackingStore Key KeyPath} {scope : List StoreRef}
  {db db' : OpenDatabase Key KeyPath}

variable {ref : StoreRef} {s : OpenStore Key KeyPath}

omit [LinearOrder Key] in
theorem openStore_eq_some : db.openStore ref = some s ↔ ref ∈ db.transaction.objectStores ∧
      db.backingStore.objects.lookup ref = some s.store ∧
      db.transaction.records.lookup ref = some s.transaction := by
  unfold openStore
  split_ifs with href
  · simp only [bind_eq_some_iff, map_eq_some_iff, href, true_and]
    constructor
    · rintro ⟨store, hstore, transaction, htx, rfl⟩
      exact ⟨hstore, htx⟩
    · rintro ⟨hstore, htx⟩
      exact ⟨s.store, hstore, s.transaction, htx, rfl⟩
  · simp [href]

omit [LinearOrder Key] in
theorem mem_of_objectStoreForIdentifier {backingStore : MemoryIDBBackingStore Key KeyPath}
    {identifier : ℕ} (h : backingStore.objectStoreForIdentifier identifier = some ref) :
    ref ∈ backingStore.objectStores :=
  mem_of_find?_eq_some h

omit [LinearOrder Key] in
/-- A step on one object store does nothing unless it is found. -/
theorem withObjectStore_cases {identifier : ℕ}
    {operation : StoreRef → OpenStore Key KeyPath → Option (OpenDatabase Key KeyPath)}
    (hstep : db.withObjectStore identifier operation = some db') :
    db' = db ∨ ∃ ref s, db.backingStore.objectStoreForIdentifier identifier = some ref ∧
      db.openStore ref = some s ∧ operation ref s = some db' := by
  unfold withObjectStore at hstep
  cases hid : db.backingStore.objectStoreForIdentifier identifier with
  | none =>
    rw [hid] at hstep
    exact .inl (some.inj hstep).symm
  | some ref =>
    rw [hid] at hstep
    obtain ⟨s, hopen, hs⟩ := bind_eq_some_iff.mp hstep
    exact .inr ⟨ref, s, rfl, hopen, hs⟩

section

variable (h : db.Invariant bindings original scope)

include h

/-- The open store of a reference in scope is the recoverable one. -/
theorem Invariant.recoverable_openStore (href : ref ∈ scope) (hopen : db.openStore ref = some s)
    {store : MemoryObjectStore Key KeyPath} (hget : original.objects.lookup ref = some store) :
    Recoverable bindings store ref s db.transaction.deletedIndexes := by
  obtain ⟨-, hstore, htx⟩ := openStore_eq_some.mp hopen
  obtain ⟨store', ⟨current, transaction⟩, hget', hstore', htx', hrecov⟩ :=
    h.recoverable ref href
  cases hget'.symm.trans hget
  cases hstore'.symm.trans hstore
  cases htx'.symm.trans htx
  exact hrecov

/-- Changing one object store of the transaction and deleting some of its indexes only matters for
that store. -/
theorem Invariant.setStoreDeleting (href : ref ∈ db.transaction.objectStores)
    {deletedIndexes : HashMap String (DeletedIndex Key KeyPath)}
    (hext : Extends (fun _ deleted => deleted.objectStore = ref) db.transaction.deletedIndexes
      deletedIndexes)
    (hs : ref ∈ scope → ∀ store, original.objects.lookup ref = some store →
      Recoverable bindings store ref s deletedIndexes) :
    ({ db.setStore ref s with
      transaction := { (db.setStore ref s).transaction with deletedIndexes } } :
      OpenDatabase Key KeyPath).Invariant bindings original scope where
  __ := h
  alive := fun other hoth => AList.mem_insert _ |>.mpr (.inr (h.alive other hoth))
  outOfScope := by
    intro other hoth hnot
    have hne : other ≠ ref := by
      rintro rfl
      exact (h.written other href).elim hnot fun hadded => h.added other hadded hoth
    simp only [OpenDatabase.setStore, lookup_insert_ne hne]
    exact h.outOfScope other hoth hnot
  deletedIndexes := by
    intro name deleted hdel
    rcases hext.new hdel with hdel | hdel
    · exact h.deletedIndexes name deleted hdel
    · rw [hdel]
      exact (h.written ref href).imp_right (h.added ref)
  recoverable := by
    intro other hoth
    obtain ⟨store, s', hget, hstore, htx, hrecov⟩ := h.recoverable other hoth
    by_cases hne : other = ref
    · subst hne
      refine ⟨store, s, hget, ?_, ?_, hs hoth store hget⟩ <;> exact lookup_insert ..
    · refine ⟨store, s', hget, (lookup_insert_ne hne).trans hstore,
        (lookup_insert_ne hne).trans htx, hrecov.undoable, ?_, ?_⟩
      · intro indexRef index hidx
        refine (hrecov.kept indexRef index hidx).imp_right ?_
        rintro ⟨deleted, hdel⟩
        exact ⟨deleted, hext.kept hdel⟩
      · intro name deleted hdel hobj
        rcases hext.new hdel with hdel | hdel
        · exact hrecov.deleted name deleted hdel hobj
        · exact absurd (hobj.symm.trans hdel) hne

theorem Invariant.setStore (href : ref ∈ db.transaction.objectStores)
    (hs : ref ∈ scope → ∀ store, original.objects.lookup ref = some store →
      Recoverable bindings store ref s db.transaction.deletedIndexes) :
    (db.setStore ref s).Invariant bindings original scope :=
  h.setStoreDeleting href (.refl _) hs

/-- An operation on one object store keeps the invariant when it keeps the store undoable and its
indexes registered. -/
theorem Invariant.updateObjectStore {identifier : ℕ}
    {operation : OpenStore Key KeyPath → Option (OpenStore Key KeyPath)}
    (hstep : db.updateObjectStore identifier operation = some db')
    (hoperation : ∀ ref s s' store,
      db.backingStore.objectStoreForIdentifier identifier = some ref → db.openStore ref = some s →
      ref ∈ scope → s.Undoable bindings store → operation s = some s' →
        s'.Undoable bindings store ∧ s'.store.plain.indexes = s.store.plain.indexes) :
    db'.Invariant bindings original scope := by
  rcases withObjectStore_cases hstep with rfl | ⟨ref, s, hid, hopen, hs⟩
  · exact h
  · obtain ⟨s', hs', rfl⟩ := map_eq_some_iff.mp hs
    refine h.setStore (openStore_eq_some.mp hopen).1 fun href store hstore => ?_
    have hrecov := h.recoverable_openStore href hopen hstore
    obtain ⟨hundo, hidxs⟩ :=
      hoperation ref s s' store hid hopen href hrecov.undoable hs'
    refine ⟨hundo, ?_, ?_⟩
    · rw [hidxs]
      exact hrecov.kept
    · rw [hidxs]
      exact hrecov.deleted

end

end OpenDatabase

namespace OpenDatabase

variable [LinearOrder Key] (bindings : Bindings Key KeyPath Value)

variable (original : MemoryIDBBackingStore Key KeyPath)

/-- An abort can bring the index back: its name is free among the deleted indexes, and filling it
from the original records does not stop early. -/
def IndexRestorable (db : OpenDatabase Key KeyPath) (ref : StoreRef)
    (index : MemoryIndex Key KeyPath) : Prop :=
  db.transaction.deletedIndexes.lookup index.info.name = none ∧
    ∀ store, original.objects.lookup ref = some store →
      Repopulates bindings index.info store.records

def StoreGuard (db : OpenDatabase Key KeyPath) (ref : StoreRef) (s : OpenStore Key KeyPath) :
    DatabaseOperation Key KeyPath → Prop
  | .deleteRange _ range => ref ∈ original.objectStores →
      range.isExactlyOneKey bindings = true → ∀ key ∈ range.lowerKey, s.Restorable key
  | .putRecord _ key value iteration => ref ∈ original.objectStores →
      s.Restorable key ∧
        (s.deleteRange bindings (.single key)).PutRestorable bindings iteration key value
  | .createIndex .. => ref ∉ original.objectStores
  | .deleteIndex _ index => ref ∈ original.objectStores →
      ∀ indexRef index', s.store.indexForIdentifier index = some (indexRef, index') →
        db.IndexRestorable bindings original ref index'
  | .deleteObjectStore _ =>
      (ref ∈ original.objectStores → ∀ indexRef index', s.store.indexes.lookup indexRef = some index' →
        db.IndexRestorable bindings original ref index') ∧
      (ref ∉ original.objectStores →
        db.transaction.deletedObjectStores.lookup s.store.name ≠ none)
  | _ => True

end OpenDatabase

def DatabaseOperation.objectStore : DatabaseOperation Key KeyPath → ℕ
  | .deleteRange objectStore _ => objectStore
  | .putRecord objectStore .. => objectStore
  | .clearObjectStore objectStore => objectStore
  | .generateKeyNumber objectStore => objectStore
  | .revertGeneratedKeyNumber objectStore _ => objectStore
  | .maybeUpdateKeyGeneratorNumber objectStore _ => objectStore
  | .createObjectStore _ identifier _ => identifier
  | .deleteObjectStore objectStore => objectStore
  | .createIndex _ info _ => info.objectStoreIdentifier
  | .deleteIndex objectStore _ => objectStore

def OpenDatabase.Guard [LinearOrder Key] (bindings : Bindings Key KeyPath Value)
    (original : MemoryIDBBackingStore Key KeyPath) (db : OpenDatabase Key KeyPath)
    (operation : DatabaseOperation Key KeyPath) : Prop :=
  ∀ ref s, db.backingStore.objectStoreForIdentifier operation.objectStore = some ref →
    db.openStore ref = some s → db.StoreGuard bindings original ref s operation

namespace OpenDatabase

variable [LinearOrder Key] {bindings : Bindings Key KeyPath Value}
  {original : MemoryIDBBackingStore Key KeyPath} {scope : List StoreRef}
  {db db' : OpenDatabase Key KeyPath}

variable {objectStore identifier : ℕ} {ref : StoreRef} {name : String}
  {store : MemoryObjectStore Key KeyPath} {orders : AbortOrders Key KeyPath}
  {objects : HashMap StoreRef (MemoryObjectStore Key KeyPath)}

omit [LinearOrder Key] in
theorem createObjectStore_cases (hstep : db.createObjectStore ref identifier name = some db') :
    db' = db ∨ (db.transaction.isVersionChange ∧ ref ∉ db.backingStore.objects ∧
      db' =
        { backingStore :=
            { databaseInfo := db.backingStore.databaseInfo.insert identifier name
              objects := db.backingStore.objects.insert ref ⟨identifier, name, 1, none, none, ∅⟩
              objectStores := db.backingStore.objectStores ++ [ref] }
          transaction := { db.transaction with
            objectStores := db.transaction.objectStores ++ [ref]
            versionChangeAddedObjectStores := db.transaction.versionChangeAddedObjectStores ++ [ref]
            records := db.transaction.records.insert ref (.start true 1) } }) := by
  unfold createObjectStore at hstep
  split_ifs at hstep with hname hnew
  · exact .inl (some.inj hstep).symm
  · exact .inr ⟨hnew.1, hnew.2.1, (some.inj hstep).symm⟩

/-- Deleting an index whose name is free keeps the store recoverable. -/
theorem recoverable_unregisterIndex {s : OpenStore Key KeyPath}
    {deletedIndexes : HashMap String (DeletedIndex Key KeyPath)}
    (h : Recoverable bindings store ref s deletedIndexes) {indexRef : IndexRef}
    {index : MemoryIndex Key KeyPath} (hget : s.store.indexes.lookup indexRef = some index)
    (hname : deletedIndexes.lookup index.info.name = none)
    (hrepop : Repopulates bindings index.info store.records) :
    Recoverable bindings store ref (s.unregisterIndex indexRef)
      (deletedIndexes.insert index.info.name ⟨ref, indexRef, index⟩) := by
  obtain ⟨index₀, hindex₀, hinfo⟩ := h.undoable.within indexRef index hget
  have hplain : ∀ other, (s.unregisterIndex indexRef).store.plain.indexes other =
      if other = indexRef then none else s.store.plain.indexes other := by
    intro other
    simp only [MemoryObjectStore.plain, OpenStore.unregisterIndex, lookup_erase_eq]
    split_ifs <;> rfl
  refine ⟨h.undoable.unregisterIndex indexRef, fun other index' hidx' => ?_,
    fun name deleted hdel hobj => ?_⟩
  · rw [hplain, lookup_insert_eq]
    by_cases hoth : other = indexRef
    · subst hoth
      cases hindex₀.symm.trans hidx'
      exact .inr ⟨index, if_pos (congrArg IDBIndexInfo.name hinfo)⟩
    · rw [if_neg hoth]
      refine (h.kept other index' hidx').imp_right ?_
      rintro ⟨deleted, hdel⟩
      rw [if_neg (fun heq => by rw [heq, hname] at hdel; cases hdel)]
      exact ⟨deleted, hdel⟩
  · rw [lookup_insert_eq] at hdel
    rw [hplain]
    split_ifs at hdel with hsame
    · cases hdel
      refine ⟨hsame, if_pos rfl, ?_, hrepop⟩
      simp only [MemoryObjectStore.plain, hindex₀, map_some, hinfo]
    · obtain ⟨hname', hgone, horiginal, hrepop'⟩ := h.deleted name deleted hdel hobj
      exact ⟨hname', by rw [hgone, ite_self], horiginal, hrepop'⟩

omit [LinearOrder Key] in
/-- A deleted index is remembered when its object store is not one that replaced a deleted store of
the same name, and its name is free. -/
theorem indexDeleted_eq {transaction : MemoryBackingStoreTransaction Key KeyPath} {storeName : String}
    (deleted : DeletedIndex Key KeyPath)
    (hstore : transaction.deletedObjectStores.lookup storeName = none)
    (hname : transaction.deletedIndexes.lookup deleted.index.info.name = none) :
    transaction.indexDeleted storeName deleted = { transaction with
      deletedIndexes := transaction.deletedIndexes.insert deleted.index.info.name deleted } := by
  simp [MemoryBackingStoreTransaction.indexDeleted, hstore, hname]

variable (transaction : MemoryBackingStoreTransaction Key KeyPath) (storeName : String)

omit [LinearOrder Key] in
/-- A deleted index only adds itself to those remembered. -/
theorem indexDeleted_cases (deleted : DeletedIndex Key KeyPath) :
    ∃ deletedIndexes, transaction.indexDeleted storeName deleted = { transaction with deletedIndexes } ∧
      Extends (fun _ other => other.objectStore = deleted.objectStore) transaction.deletedIndexes
        deletedIndexes := by
  unfold MemoryBackingStoreTransaction.indexDeleted
  split_ifs with hstore hname
  · exact ⟨_, rfl, .refl _⟩
  · exact ⟨_, rfl, .refl _⟩
  · exact ⟨_, rfl, .insert (not_isSome_iff_eq_none.mp hname) rfl⟩

def deleteIndexOf (ref : StoreRef)
    (state : OpenStore Key KeyPath × MemoryBackingStoreTransaction Key KeyPath)
    (entry : IndexRef × MemoryIndex Key KeyPath) :
    OpenStore Key KeyPath × MemoryBackingStoreTransaction Key KeyPath :=
  (state.1.unregisterIndex entry.1, state.2.indexDeleted storeName ⟨ref, entry.1, entry.2⟩)

omit [LinearOrder Key] in
/-- Deleting indexes of an object store only changes which deleted indexes are remembered. -/
theorem foldl_indexDeleted_cases (ref : StoreRef)
    (entries : List (IndexRef × MemoryIndex Key KeyPath))
    (state : OpenStore Key KeyPath × MemoryBackingStoreTransaction Key KeyPath) :
    ∃ s deletedIndexes, entries.foldl (deleteIndexOf storeName ref) state =
        (s, { state.2 with deletedIndexes }) ∧
      Extends (fun _ other => other.objectStore = ref) state.2.deletedIndexes deletedIndexes := by
  induction entries generalizing state with
  | nil => exact ⟨state.1, state.2.deletedIndexes, rfl, .refl _⟩
  | cons first rest ih =>
    obtain ⟨deletedIndexes, heq, hext⟩ :=
      indexDeleted_cases state.2 storeName ⟨ref, first.1, first.2⟩
    obtain ⟨s, deletedIndexes', heq', hext'⟩ :=
      ih (state.1.unregisterIndex first.1, state.2.indexDeleted storeName ⟨ref, first.1, first.2⟩)
    simp only [heq] at heq' hext'
    refine ⟨s, deletedIndexes', ?_, hext.trans hext'⟩
    rw [foldl_cons, deleteIndexOf, heq, heq']

/-- Deleting all indexes of an object store, with names that are distinct and free, keeps the store
recoverable. -/
theorem recoverable_deleteAllIndexes {storeName : String}
    (entries : List (IndexRef × MemoryIndex Key KeyPath))
    (state : OpenStore Key KeyPath × MemoryBackingStoreTransaction Key KeyPath)
    (h : Recoverable bindings store ref state.1 state.2.deletedIndexes)
    (hstore : state.2.deletedObjectStores.lookup storeName = none)
    (hrefs : (entries.map Prod.fst).Nodup)
    (hnames : (entries.map fun entry => entry.2.info.name).Nodup)
    (hents : ∀ entry ∈ entries, state.1.store.indexes.lookup entry.1 = some entry.2 ∧
      state.2.deletedIndexes.lookup entry.2.info.name = none ∧
      Repopulates bindings entry.2.info store.records) :
    Recoverable bindings store ref
      (entries.foldl (deleteIndexOf storeName ref) state).1
      (entries.foldl (deleteIndexOf storeName ref) state).2.deletedIndexes := by
  induction entries generalizing state with
  | nil => exact h
  | cons first rest ih =>
    obtain ⟨hget, hname, hrepop⟩ := hents first mem_cons_self
    obtain ⟨href, hrefs⟩ := nodup_cons.mp hrefs
    obtain ⟨hfst, hnames⟩ := nodup_cons.mp hnames
    have heq := indexDeleted_eq ⟨ref, first.1, first.2⟩ hstore hname
    rw [foldl_cons, deleteIndexOf, heq]
    refine ih _ ?_ hstore hrefs hnames ?_
    · exact recoverable_unregisterIndex h hget hname hrepop
    · intro entry hent
      obtain ⟨hget', hname', hrepop'⟩ := hents entry (mem_cons_of_mem _ hent)
      refine ⟨?_, ?_, hrepop'⟩
      · rw [OpenStore.unregisterIndex, lookup_erase_eq, if_neg, hget']
        intro hsame
        exact href (hsame ▸ mem_map_of_mem hent)
      · rw [lookup_insert_eq, if_neg, hname']
        intro hsame
        exact hfst (mem_map.mpr ⟨entry, hent, hsame⟩)

omit [LinearOrder Key] in
/-- A deleted object store is remembered exactly when its name is free. -/
theorem addDeletedObjectStore_cases (name : String) (ref : StoreRef) : ∃ deletedObjectStores,
      transaction.addDeletedObjectStore name ref = { transaction with deletedObjectStores } ∧
      Extends (fun other ref' => transaction.deletedObjectStores.lookup name = none ∧ other = name ∧
        ref' = ref) transaction.deletedObjectStores deletedObjectStores ∧
      (transaction.deletedObjectStores.lookup name = none →
        deletedObjectStores.lookup name = some ref) := by
  unfold MemoryBackingStoreTransaction.addDeletedObjectStore
  split_ifs with hname
  · exact ⟨_, rfl, .refl _, fun hnone => by simp [hnone] at hname⟩
  · have hnone := not_isSome_iff_eq_none.mp hname
    exact ⟨_, rfl, .insert hnone ⟨hnone, rfl, rfl⟩, fun _ => lookup_insert ..⟩

section Step

variable (hscope : ∀ ref ∈ scope, ref ∈ original.objectStores)
  (horiginal : original.Consistent bindings)

include hscope

section

variable (h : db.Invariant bindings original scope)

include h

theorem Invariant.putRecord {key : Key}
    {value : ThreadSafeDataBuffer} {order : IterationOrder IndexRef}
    (hguard : db.Guard bindings original (.putRecord objectStore key value order))
    (hstep : db.step bindings (.putRecord objectStore key value order) = some db') :
    db'.Invariant bindings original scope := by
  refine h.updateObjectStore hstep ?_
  intro ref s s' store hid hopen href hundo hs'
  obtain ⟨hkey, hput⟩ := hguard ref s hid hopen (hscope ref href)
  simp only [ite_none_right_eq_some, some.injEq] at hs'
  obtain ⟨hfree, rfl⟩ := hs'
  have hdel : (s.deleteRange bindings (.single key)).Undoable bindings store := by
    apply hundo.deleteRange
    intro _ other hoth
    cases hoth
    exact hkey
  exact ⟨hdel.addRecord hfree hput,
    (OpenStore.indexes_addRecord ..).trans (OpenStore.indexes_deleteRange s _)⟩

theorem Invariant.createObjectStore (hstep : db.createObjectStore ref identifier name = some db') :
    db'.Invariant bindings original scope := by
  obtain rfl | ⟨hver, hfresh, rfl⟩ := createObjectStore_cases hstep
  · exact h
  have hnew : ref ∉ original.objectStores := fun href => hfresh (h.alive ref (.inl href))
  have hne : ∀ other ∈ original.objectStores, other ≠ ref := fun other hoth heq =>
    hnew (heq ▸ hoth)
  have hreg : ref ∉ db.backingStore.objectStores := fun href =>
    hfresh (h.alive ref (h.registered ref href))
  have hwritten : ref ∉ db.transaction.objectStores := fun href =>
    hfresh (h.alive ref ((h.written ref href).imp_left (hscope ref)))
  refine
    { h with
      readWrite := fun hrw => ?_
      alive := fun other hoth => ?_
      added := fun other hoth => ?_
      registered := fun other hoth => ?_
      registeredNodup := ?_
      kept := fun other hoth => (h.kept other hoth).imp_left (mem_append_left _)
      deleted := fun name' other hdel => ?_
      scopeNodup := ?_
      written := fun other hoth => ?_
      inScope := fun other hoth => (h.inScope other hoth).imp_left (mem_append_left _)
      outOfScope := fun other hoth hnot => ?_
      recoverable := fun other hoth => ?_ }
  · exact absurd (hver.symm.trans hrw) Bool.noConfusion
  · rw [AList.mem_insert]
    rcases hoth with hoth | hoth
    · exact .inr (h.alive other (.inl hoth))
    · rcases mem_append.mp hoth with hoth | hoth
      · exact .inr (h.alive other (.inr hoth))
      · exact .inl (mem_singleton.mp hoth)
  · rcases mem_append.mp hoth with hoth | hoth
    · exact h.added other hoth
    · rw [mem_singleton.mp hoth]
      exact hnew
  · rcases mem_append.mp hoth with hoth | hoth
    · exact (h.registered other hoth).imp_right (mem_append_left _)
    · exact .inr (mem_append_right _ hoth)
  · exact nodup_append_comm.mp (nodup_cons.mpr ⟨hreg, h.registeredNodup⟩)
  · obtain ⟨hoth, hgone, hclosed, hname⟩ := h.deleted name' other hdel
    have hsame := hne other (hscope other hoth)
    refine ⟨hoth, fun hmem => ?_, fun hmem => ?_, hname⟩
    · rcases mem_append.mp hmem with hmem | hmem
      · exact hgone hmem
      · exact hsame (mem_singleton.mp hmem)
    · rcases mem_append.mp hmem with hmem | hmem
      · exact hclosed hmem
      · exact hsame (mem_singleton.mp hmem)
  · exact nodup_append_comm.mp (nodup_cons.mpr ⟨hwritten, h.scopeNodup⟩)
  · rcases mem_append.mp hoth with hoth | hoth
    · exact (h.written other hoth).imp_right (mem_append_left _)
    · exact .inr (mem_append_right _ hoth)
  · rw [lookup_insert_ne (hne other hoth), lookup_insert_ne (hne other hoth)]
    exact h.outOfScope other hoth hnot
  · obtain ⟨store, s, hget, hstore, htx, hrecov⟩ := h.recoverable other hoth
    have hsame := hne other (hscope other hoth)
    exact ⟨store, s, hget, (lookup_insert_ne hsame).trans hstore,
      (lookup_insert_ne hsame).trans htx, hrecov⟩

/-- Unregistering an object store of the transaction after its indexes have been deleted. -/
theorem Invariant.unregister (hver : db.transaction.isVersionChange)
    (hname : ∀ store, ref ∈ scope → original.objects.lookup ref = some store → store.name = name)
    (hfree : ref ∈ original.objectStores → db.transaction.deletedObjectStores.lookup name = none)
    (htaken : ref ∉ original.objectStores → db.transaction.deletedObjectStores.lookup name ≠ none)
    (hwritten : ref ∈ db.transaction.objectStores) (databaseInfo : HashMap ℕ String) :
    ({ backingStore := { db.backingStore with
          databaseInfo, objectStores := db.backingStore.objectStores.erase ref }
       transaction := { db.transaction.addDeletedObjectStore name ref with
          objectStores := db.transaction.objectStores.erase ref } } :
      OpenDatabase Key KeyPath).Invariant bindings original scope := by
  obtain ⟨deletedObjectStores, heq, hext, hadd⟩ :=
    addDeletedObjectStore_cases db.transaction name ref
  rw [heq]
  have hkept : ∀ other, (other ∈ db.backingStore.objectStores ∨
      ∃ name, db.transaction.deletedObjectStores.lookup name = some other) → other ∈ original.objectStores →
      other ∈ db.backingStore.objectStores.erase ref ∨
        ∃ name, deletedObjectStores.lookup name = some other := by
    rintro other (hoth | ⟨name', hoth⟩) horiginal
    · by_cases hsame : other = ref
      · exact .inr ⟨name, hsame ▸ hadd (hfree (hsame ▸ horiginal))⟩
      · exact .inl ((mem_erase_of_ne hsame).mpr hoth)
    · exact .inr ⟨name', hext.kept hoth⟩
  refine
    { h with
      readWrite := fun hrw => absurd (hver.symm.trans hrw) Bool.noConfusion
      registered := fun other hoth => h.registered other (mem_of_mem_erase hoth)
      registeredNodup := h.registeredNodup.erase _
      kept := fun other hoth => hkept other (h.kept other hoth) hoth
      deleted := fun name' other hdel => ?_
      scopeNodup := h.scopeNodup.erase _
      written := fun other hoth => h.written other (mem_of_mem_erase hoth)
      inScope := fun other hoth => ?_ }
  · rcases hext.new hdel with hdel | ⟨hnone, rfl, rfl⟩
    · obtain ⟨hoth, hgone, hclosed, hstore⟩ := h.deleted name' other hdel
      exact ⟨hoth, fun hmem => hgone (mem_of_mem_erase hmem),
        fun hmem => hclosed (mem_of_mem_erase hmem), hstore⟩
    · have horiginal : other ∈ original.objectStores := by
        by_contra hnot
        exact htaken hnot hnone
      have hoth : other ∈ scope :=
        (h.written other hwritten).resolve_right fun hadded => h.added other hadded horiginal
      obtain ⟨store, s, hstore, -⟩ := h.recoverable other hoth
      exact ⟨hoth, h.registeredNodup.not_mem_erase, h.scopeNodup.not_mem_erase, store, hstore,
        hname store hoth hstore⟩
  · rcases h.inScope other hoth with hmem | ⟨name', hdel⟩
    · by_cases hsame : other = ref
      · exact .inr ⟨name, hsame ▸ hadd (hfree (hsame ▸ hscope other hoth))⟩
      · exact .inl ((mem_erase_of_ne hsame).mpr hmem)
    · exact .inr ⟨name', hext.kept hdel⟩

end

include horiginal

section

variable (h : db.Invariant bindings original scope)

include h

/-- No deleted object store has the name of a registered one that was there from the start. -/
theorem Invariant.deletedObjectStores_lookup
    (href : ref ∈ scope) (hreg : ref ∈ db.backingStore.objectStores)
    {s : OpenStore Key KeyPath} (hopen : db.openStore ref = some s) :
    db.transaction.deletedObjectStores.lookup s.store.name = none := by
  cases hdel : db.transaction.deletedObjectStores.lookup s.store.name with
  | none => rfl
  | some other =>
    obtain ⟨hoth, hgone, -, store', hstore', hname⟩ := h.deleted _ other hdel
    obtain ⟨store, -, hstore, -⟩ := h.recoverable ref href
    have hrecov := h.recoverable_openStore href hopen hstore
    have hsame := horiginal.names other (hscope other hoth) ref (hscope ref href) store' store hstore'
      hstore (hname.trans hrecov.undoable.name)
    exact absurd (hsame ▸ hreg) hgone

theorem Invariant.deleteIndex
    (hguard : db.Guard bindings original (.deleteIndex objectStore identifier))
    (hstep : db.deleteIndex objectStore identifier = some db') :
    db'.Invariant bindings original scope := by
  rcases withObjectStore_cases hstep with rfl | ⟨ref, s, hid, hopen, hs⟩
  · exact h
  split_ifs at hs with hver
  · cases hfind : s.store.indexForIdentifier identifier with
    | none =>
      rw [hfind] at hs
      cases hs
      exact h
    | some entry =>
      obtain ⟨indexRef, index⟩ := entry
      obtain ⟨hget, -⟩ := MemoryObjectStore.lookup_of_indexForIdentifier hfind
      simp only [hfind] at hs
      cases hs
      obtain ⟨deletedIndexes, heq, hext⟩ := indexDeleted_cases
        (db.setStore ref (s.unregisterIndex indexRef)).transaction s.store.name
        ⟨ref, indexRef, index⟩
      rw [heq]
      refine h.setStoreDeleting (openStore_eq_some.mp hopen).1 hext fun href store hstore => ?_
      obtain ⟨hname, hrepop⟩ :=
        hguard ref s hid hopen (hscope ref href) indexRef index hfind
      have hnone := h.deletedObjectStores_lookup hscope horiginal href
        (mem_of_objectStoreForIdentifier hid) hopen
      have heq' := congrArg MemoryBackingStoreTransaction.deletedIndexes
        (heq.symm.trans (indexDeleted_eq ⟨ref, indexRef, index⟩ hnone hname))
      rw [show deletedIndexes = _ from heq']
      exact recoverable_unregisterIndex (h.recoverable_openStore href hopen hstore) hget hname
        (hrepop store hstore)
  · cases hs
    exact h

theorem Invariant.deleteObjectStore
    (hguard : db.Guard bindings original (.deleteObjectStore objectStore))
    (hstep : db.deleteObjectStore objectStore = some db') :
    db'.Invariant bindings original scope := by
  unfold OpenDatabase.deleteObjectStore at hstep
  by_cases hinfo : (db.backingStore.databaseInfo.lookup objectStore).isNone
  · rw [if_pos hinfo] at hstep
    cases hstep
    exact h
  rw [if_neg hinfo] at hstep
  rcases withObjectStore_cases hstep with rfl | ⟨ref, s, hid, hopen, hs⟩
  · exact h
  · have hwritten := (openStore_eq_some.mp hopen).1
    have hreg := mem_of_objectStoreForIdentifier hid
    obtain ⟨hexist, hcreated⟩ := hguard ref s hid hopen
    have hscoped : ref ∈ original.objectStores → ref ∈ scope := fun href =>
      (h.written ref hwritten).resolve_right fun hadded => h.added ref hadded href
    split_ifs at hs with hver
    cases hs
    obtain ⟨s', deletedIndexes, heq, hext⟩ :=
      foldl_indexDeleted_cases s.store.name ref (pairs s.store.indexes) (s, db.transaction)
    have hdeleteAll : deleteAllIndexes ref s db.transaction =
        (s', { db.transaction with deletedIndexes }) := heq
    rw [hdeleteAll]
    apply (h.setStoreDeleting hwritten hext (s := s') ?_).unregister hscope hver
    · intro store href hstore
      exact (h.recoverable_openStore href hopen hstore).undoable.name.symm
    · exact fun href =>
        h.deletedObjectStores_lookup hscope horiginal (hscoped href) hreg hopen
    · exact hcreated
    · exact hwritten
    · intro href store hstore
      have hrecov := h.recoverable_openStore href hopen hstore
      have hnone := h.deletedObjectStores_lookup hscope horiginal href hreg hopen
      have hall := recoverable_deleteAllIndexes (pairs s.store.indexes) (s, db.transaction)
        hrecov hnone ?_ ?_ ?_
      · rw [heq] at hall
        exact hall
      · rw [pairs_fst]
        exact s.store.indexes.keys_nodup
      · refine (nodup_pairs s.store.indexes).map_on fun entry hent other hoth hsame => ?_
        obtain ⟨index, hidx, hinfo⟩ :=
          hrecov.undoable.within entry.1 entry.2 (mem_pairs.mp hent)
        obtain ⟨index', hidx', hinfo'⟩ :=
          hrecov.undoable.within other.1 other.2 (mem_pairs.mp hoth)
        have href : entry.1 = other.1 := horiginal.indexNames ref (hscope ref href) store hstore index
          index' entry.1 other.1 hidx hidx' (by rw [hinfo, hinfo', hsame])
        have hget := mem_pairs.mp hent
        rw [href] at hget
        exact Prod.ext href (some.inj (hget.symm.trans (mem_pairs.mp hoth)))
      · intro entry hent
        have hget := mem_pairs.mp hent
        obtain ⟨hname, hrepop⟩ := hexist (hscope ref href) entry.1 entry.2 hget
        exact ⟨hget, hname, hrepop store hstore⟩

/-- One step keeps the transaction able to bring the backing store back. -/
theorem Invariant.step
    {operation : DatabaseOperation Key KeyPath} (hguard : db.Guard bindings original operation)
    (hstep : db.step bindings operation = some db') : db'.Invariant bindings original scope := by
  cases operation with
  | deleteRange objectStore range =>
    refine h.updateObjectStore hstep fun ref s s' store hid hopen href hundo hs' => ?_
    cases hs'
    exact ⟨hundo.deleteRange (hguard ref s hid hopen (hscope ref href)),
      OpenStore.indexes_deleteRange s range⟩
  | putRecord objectStore key value order => exact h.putRecord hscope hguard hstep
  | clearObjectStore objectStore =>
    refine h.updateObjectStore hstep fun ref s s' store _ _ _ hundo hs' => ?_
    cases hs'
    exact ⟨hundo.clear, OpenStore.indexes_clear s⟩
  | generateKeyNumber objectStore =>
    refine h.updateObjectStore hstep fun ref s s' store _ _ _ hundo hs' => ?_
    cases hs'
    unfold OpenStore.generateKeyNumber
    split_ifs
    · exact ⟨hundo, rfl⟩
    · exact ⟨hundo.setKeyGeneratorValue _, rfl⟩
  | revertGeneratedKeyNumber objectStore keyNumber =>
    refine h.updateObjectStore hstep fun ref s s' store _ _ _ hundo hs' => ?_
    cases hs'
    exact ⟨hundo.setKeyGeneratorValue keyNumber, rfl⟩
  | maybeUpdateKeyGeneratorNumber objectStore newKeyNumber =>
    refine h.updateObjectStore hstep fun ref s s' store _ _ _ hundo hs' => ?_
    cases hs'
    unfold OpenStore.maybeUpdateKeyGeneratorNumber
    split_ifs
    · exact ⟨hundo, rfl⟩
    · exact ⟨hundo.setKeyGeneratorValue _, rfl⟩
  | createObjectStore ref identifier name => exact h.createObjectStore hscope hstep
  | deleteObjectStore objectStore => exact h.deleteObjectStore hscope horiginal hguard hstep
  | createIndex ref info order =>
    refine h.updateObjectStore hstep fun ref s s' store hid hopen href _ _ => ?_
    exact absurd (hscope ref href) (hguard ref s hid hopen)
  | deleteIndex objectStore index => exact h.deleteIndex hscope horiginal hguard hstep

end

end Step

omit [LinearOrder Key] in
theorem mem_of_mem_scope {isVersionChange : Bool} {names : List String}
    (href : ref ∈ (original.beginTransaction isVersionChange names).transaction.objectStores) :
    ref ∈ original.objectStores := by
  cases isVersionChange with
  | false => exact (mem_filter.mp href).1
  | true => exact href

theorem invariant_beginTransaction (horiginal : original.Consistent bindings) (isVersionChange : Bool)
    (names : List String) :
    (original.beginTransaction isVersionChange names).Invariant bindings original
      (original.beginTransaction isVersionChange names).transaction.objectStores where
  versionChange := fun hver => if_pos hver
  readWrite := fun hrw => ⟨if_neg (ne_true_of_eq_false hrw), rfl⟩
  alive := by
    intro ref href
    obtain ⟨store, hstore, -⟩ := horiginal.objectStores ref (href.resolve_right not_mem_nil)
    exact mem_keys_iff.mpr ⟨store, hstore⟩
  added := nofun
  registered := fun ref href => .inl href
  registeredNodup := horiginal.nodup
  kept := fun ref href => .inl href
  deleted := nofun
  scopeNodup := by
    cases isVersionChange with
    | false => exact horiginal.nodup.filter _
    | true => exact horiginal.nodup
  written := fun ref href => .inl href
  inScope := fun ref href => .inl href
  outOfScope := fun ref _ hnot => ⟨rfl, (lookup_tabulate _ _ ref).trans (if_neg hnot)⟩
  deletedIndexes := nofun
  recoverable := by
    intro ref href
    obtain ⟨store, hstore, hcons⟩ := horiginal.objectStores ref (mem_of_mem_scope href)
    refine ⟨store, ⟨store, .start isVersionChange store.keyGeneratorValue⟩, hstore, hstore, ?_,
      OpenStore.undoable_start hcons isVersionChange, ?_, nofun⟩
    · refine (lookup_tabulate _ _ ref).trans ((if_pos href).trans ?_)
      simp only [hstore, Option.elim]
    · intro indexRef index hidx
      have hinfo : store.plain.indexes indexRef = some index.info :=
        map_eq_some_iff.mpr ⟨index, hidx, rfl⟩
      exact .inl (hinfo ▸ some_ne_none index.info)

theorem lookup_restoreObjectStore_of_ne {records : HashMap StoreRef (StoreTransaction Key)}
    {other : StoreRef} (hne : ref ≠ other) (objects : HashMap StoreRef (MemoryObjectStore Key KeyPath)) :
    (restoreObjectStore bindings orders records objects other).lookup ref = objects.lookup ref := by
  rw [restoreObjectStore]
  split
  · exact lookup_insert_ne hne
  · rfl

/-- Each object store is restored from what it held before and what is recorded for it. -/
theorem lookup_foldl_restoreObjectStore {records : HashMap StoreRef (StoreTransaction Key)}
    {refs : List StoreRef} (hnodup : refs.Nodup) (href : ref ∈ refs)
    (hstore : objects.lookup ref = some store) {transaction : StoreTransaction Key}
    (htx : records.lookup ref = some transaction) :
    (refs.foldl (restoreObjectStore bindings orders records) objects).lookup ref =
      some ((⟨store, { transaction with isAborting := true }⟩ : OpenStore Key KeyPath).restore bindings
        (orders.restore ref)).store := by
  induction refs generalizing objects with
  | nil => cases href
  | cons first rest ih =>
    obtain ⟨hfst, hrest⟩ := nodup_cons.mp hnodup
    rw [foldl_cons]
    rcases mem_cons.mp href with rfl | hmem
    · rw [lookup_foldl_eq fun other hoth => lookup_restoreObjectStore_of_ne
        (ne_of_mem_of_not_mem hoth hfst).symm, restoreObjectStore, hstore, htx]
      exact lookup_insert ..
    · apply ih hrest hmem
      rw [lookup_restoreObjectStore_of_ne (ne_of_mem_of_not_mem hmem hfst), hstore]

theorem lookup_restoreDeletedIndex_of_ne {entry : String × DeletedIndex Key KeyPath}
    (hne : ref ≠ entry.2.objectStore) (objects : HashMap StoreRef (MemoryObjectStore Key KeyPath)) :
    (restoreDeletedIndex bindings orders objects entry).lookup ref = objects.lookup ref := by
  rw [restoreDeletedIndex]
  split
  · rfl
  · exact lookup_insert_ne hne

/-- Restoring deleted indexes one after the other registers each of them. -/
theorem restored_foldl_restoreDeletedIndex (orders : AbortOrders Key KeyPath)
    (hstore : store.Consistent bindings) (hnames : store.DistinctNames)
    {entries : List (String × DeletedIndex Key KeyPath)}
    (hents : ∀ entry ∈ entries, entry.2.objectStore = ref →
      store.plain.indexes entry.2.ref = some entry.2.index.info ∧
      Repopulates bindings entry.2.index.info store.records)
    {current : MemoryObjectStore Key KeyPath} (hcur : objects.lookup ref = some current)
    (hrestored : MemoryObjectStore.Restored bindings store current) :
    ∃ store', (entries.foldl (restoreDeletedIndex bindings orders) objects).lookup ref = some store' ∧
      MemoryObjectStore.Restored bindings store store' ∧
      (∀ i, current.plain.indexes i ≠ none → store'.plain.indexes i ≠ none) ∧
      ∀ entry ∈ entries, entry.2.objectStore = ref → store'.plain.indexes entry.2.ref ≠ none := by
  induction entries generalizing objects current with
  | nil => exact ⟨current, hcur, hrestored, fun _ h => h, nofun⟩
  | cons first rest ih =>
    have hrest := fun entry hent => hents entry (mem_cons_of_mem first hent)
    rw [foldl_cons]
    by_cases hfst : first.2.objectStore = ref
    · obtain ⟨hinfo, hrepop⟩ := hents first mem_cons_self hfst
      obtain ⟨hnext, hidxs⟩ := hrestored.maybeRestoreDeletedIndex hstore hnames hinfo hrepop
        ((orders.restore first.2.objectStore).records first.2.ref)
      have hget : (restoreDeletedIndex bindings orders objects first).lookup ref =
          some (current.maybeRestoreDeletedIndex bindings
            ((orders.restore first.2.objectStore).records first.2.ref) first.2.ref first.2.index) := by
        rw [restoreDeletedIndex, hfst, hcur]
        exact lookup_insert ..
      obtain ⟨store', hstore', hrest', hkeeps, hmem⟩ := ih hrest hget hnext
      rw [hidxs] at hkeeps
      refine ⟨store', hstore', hrest', fun i hi => ?_, fun entry hent hobj => ?_⟩
      · apply hkeeps
        rw [Function.update_apply]
        split_ifs
        · exact some_ne_none _
        · exact hi
      · rcases mem_cons.mp hent with rfl | hent
        · apply hkeeps
          rw [Function.update_self]
          exact some_ne_none _
        · exact hmem entry hent hobj
    · have hget : (restoreDeletedIndex bindings orders objects first).lookup ref = some current :=
        (lookup_restoreDeletedIndex_of_ne (Ne.symm hfst) objects).trans hcur
      obtain ⟨store', hstore', hrest', hkeeps, hmem⟩ := ih hrest hget hrestored
      refine ⟨store', hstore', hrest', hkeeps, fun entry hent hobj => ?_⟩
      rcases mem_cons.mp hent with rfl | hent
      · exact absurd hobj hfst
      · exact hmem entry hent hobj

abbrev walked (db : OpenDatabase Key KeyPath) : List StoreRef :=
  db.transaction.objectStores ++ (pairs db.transaction.deletedObjectStores).map Prod.snd

section

variable (h : db.Invariant bindings original scope)

include h

theorem Invariant.nodup_walked : db.walked.Nodup := by
  refine nodup_append.mpr ⟨h.scopeNodup, ?_, ?_⟩
  · refine (nodup_pairs _).map_on fun entry hent other hoth hsame => Prod.ext ?_ hsame
    obtain ⟨-, -, -, store, hstore, hname⟩ := h.deleted entry.1 entry.2 (mem_pairs.mp hent)
    obtain ⟨-, -, -, store', hstore', hname'⟩ := h.deleted other.1 other.2 (mem_pairs.mp hoth)
    rw [hsame] at hstore
    rw [← hname, ← hname', some.inj (hstore.symm.trans hstore')]
  · intro ref href other hoth hsame
    obtain ⟨entry, hent, rfl⟩ := mem_map.mp hoth
    obtain ⟨-, -, hclosed, -⟩ := h.deleted entry.1 entry.2 (mem_pairs.mp hent)
    exact hclosed (hsame ▸ href)

section

variable (hscope : ∀ ref ∈ scope, ref ∈ original.objectStores)

include hscope

/-- An abort restores every object store of the original scope. -/
theorem Invariant.abort_inScope (horiginal : original.Consistent bindings)
    (orders : AbortOrders Key KeyPath) (href : ref ∈ scope) :
    ((db.abort bindings orders).objects.lookup ref).map MemoryObjectStore.contents =
      (original.objects.lookup ref).map MemoryObjectStore.contents := by
  obtain ⟨store, s, hstore, hget, htx, hrecov⟩ := h.recoverable ref href
  obtain ⟨store', hstore', hcons⟩ := horiginal.objectStores ref (hscope ref href)
  cases hstore.symm.trans hstore'
  obtain ⟨hrest, hrecs, hheader, hidxs⟩ :=
    hrecov.undoable.restore hcons (orders.restore ref)
  have hreplaced : db.replaceIndexValueStores.lookup ref =
      some s.aborting.replaceIndexValueStores.store := by
    rw [OpenDatabase.replaceIndexValueStores, lookup_mapValues, hget, map_some, htx]
    rfl
  have hwalked : ref ∈ orders.objectStores.order db.walked := by
    rw [orders.objectStores.mem_order, mem_append]
    refine (h.inScope ref href).imp_right ?_
    rintro ⟨name, hname⟩
    exact mem_map.mpr ⟨(name, ref), mem_pairs.mpr hname, rfl⟩
  have hcur : ((orders.objectStores.order db.walked).foldl
      (restoreObjectStore bindings orders db.transaction.records) db.replaceIndexValueStores).lookup ref =
      some (s.aborting.replaceIndexValueStores.restore bindings (orders.restore ref)).store :=
    lookup_foldl_restoreObjectStore (orders.objectStores.nodup_order h.nodup_walked) hwalked hreplaced htx
  have hents : ∀ entry ∈ orders.deletedIndexes.order (pairs db.transaction.deletedIndexes),
      entry.2.objectStore = ref → store.plain.indexes entry.2.ref = some entry.2.index.info ∧
        Repopulates bindings entry.2.index.info store.records := by
    intro entry hent hobj
    exact (hrecov.deleted entry.1 entry.2
      (mem_pairs.mp (orders.deletedIndexes.mem_order.mp hent)) hobj).2.2
  have hwithin := (MemoryObjectStore.indexesWithin_of_plain hidxs).trans hrecov.undoable.within
  obtain ⟨store', hstore', hrest', hkeeps, hmem⟩ := restored_foldl_restoreDeletedIndex orders
    hcons
    (fun i i' index index' => horiginal.indexNames ref (hscope ref href) store hstore index index' i i')
    hents hcur ⟨hrest, hrecs, hheader, hwithin⟩
  have hall := hrest'.within.indexes_eq fun indexRef hne => by
    obtain ⟨info, hinfo⟩ := ne_none_iff_exists'.mp hne
    obtain ⟨index, hidx, -⟩ := map_eq_some_iff.mp hinfo
    rcases hrecov.kept indexRef index hidx with hreg | ⟨deleted, hdel⟩
    · exact hkeeps indexRef (hidxs ▸ hreg)
    · exact hmem (index.info.name, ⟨ref, indexRef, deleted⟩)
        (orders.deletedIndexes.mem_order.mpr (mem_pairs.mpr hdel)) rfl
  rw [show (db.abort bindings orders).objects.lookup ref = some store' from hstore', hstore,
    map_some, map_some,
    hcons.contents_eq hrest'.consistent hrest'.header hrest'.records hall]

omit hscope in
/-- An abort leaves the other object stores alone. -/
theorem Invariant.abort_outOfScope (orders : AbortOrders Key KeyPath)
    (hreg : ref ∈ original.objectStores) (hnot : ref ∉ scope) :
    (db.abort bindings orders).objects.lookup ref = original.objects.lookup ref := by
  obtain ⟨hobjs, hrecs⟩ := h.outOfScope ref hreg hnot
  have hents : ∀ entry ∈ orders.deletedIndexes.order (pairs db.transaction.deletedIndexes),
      ref ≠ entry.2.objectStore := by
    intro entry hent heq
    have hget := mem_pairs.mp (orders.deletedIndexes.mem_order.mp hent)
    rcases h.deletedIndexes entry.1 entry.2 hget with hmem | hnew
    · exact hnot (heq ▸ hmem)
    · exact hnew (heq ▸ hreg)
  have hwalked : ref ∉ orders.objectStores.order db.walked := by
    rw [orders.objectStores.mem_order, mem_append]
    rintro (hmem | hmem)
    · exact (h.written ref hmem).elim hnot fun hadded => h.added ref hadded hreg
    · obtain ⟨entry, hent, rfl⟩ := mem_map.mp hmem
      exact hnot (h.deleted entry.1 entry.2 (mem_pairs.mp hent)).1
  unfold OpenDatabase.abort
  rw [lookup_foldl_eq fun entry hent => lookup_restoreDeletedIndex_of_ne (hents entry hent),
    lookup_foldl_eq fun other hoth => lookup_restoreObjectStore_of_ne
      (ne_of_mem_of_not_mem hoth hwalked).symm,
    OpenDatabase.replaceIndexValueStores, lookup_mapValues, hrecs, ← hobjs]
  exact map_id'

/-- The object stores registered after an abort are the original ones. -/
theorem Invariant.mem_objectStores_abort (orders : AbortOrders Key KeyPath)
    (ref : StoreRef) : ref ∈ (db.abort bindings orders).objectStores ↔ ref ∈ original.objectStores := by
  have hmem : ref ∈ (db.abort bindings orders).objectStores ↔
      (ref ∈ db.backingStore.objectStores ∧ ref ∉ db.transaction.versionChangeAddedObjectStores) ∨
        ∃ name, db.transaction.deletedObjectStores.lookup name = some ref := by
    simp only [abort, mem_append, mem_filter, decide_eq_true_eq, mem_map, Prod.exists,
      mem_pairs, exists_eq_right]
  rw [hmem]
  constructor
  · rintro (⟨hreg, hnew⟩ | ⟨name, hdel⟩)
    · exact (h.registered ref hreg).resolve_right hnew
    · exact hscope ref (h.deleted name ref hdel).1
  · intro href
    exact (h.kept ref href).imp_left fun hreg => ⟨hreg, fun hadded =>
      h.added ref hadded href⟩

/-- An abort brings the contents of the original backing store back. -/
theorem Invariant.contents_abort (horiginal : original.Consistent bindings)
    (orders : AbortOrders Key KeyPath) :
    (db.abort bindings orders).contents = original.contents := by
  refine DatabaseContents.ext ?_ (funext fun ref => ?_)
  · show db.transaction.originalDatabaseInfo.getD db.backingStore.databaseInfo = original.databaseInfo
    cases hver : db.transaction.isVersionChange with
    | true => rw [h.versionChange hver, getD_some]
    | false => rw [(h.readWrite hver).1, getD_none, (h.readWrite hver).2]
  · simp only [MemoryIDBBackingStore.contents, h.mem_objectStores_abort hscope orders ref]
    split_ifs with href
    · by_cases hin : ref ∈ scope
      · exact h.abort_inScope hscope horiginal orders hin
      · rw [h.abort_outOfScope orders href hin]
    · rfl

end

end

/-- A transaction whose every step meets the guard can be aborted: the backing store holds again
what it held at the beginning. -/
theorem contents_abort_of_guarded_run (horiginal : original.Consistent bindings) {isVersionChange : Bool}
    {names : List String} {operations : List (DatabaseOperation Key KeyPath)}
    (hguard : Guarded (OpenDatabase.step bindings) (OpenDatabase.Guard bindings original)
      (original.beginTransaction isVersionChange names) operations)
    (hrun : run (OpenDatabase.step bindings) (original.beginTransaction isVersionChange names)
      operations = some db) (orders : AbortOrders Key KeyPath) :
    (db.abort bindings orders).contents = original.contents := by
  have hscope : ∀ ref ∈ (original.beginTransaction isVersionChange names).transaction.objectStores,
      ref ∈ original.objectStores := fun ref href => mem_of_mem_scope href
  have hinv := invariant_of_guarded (OpenDatabase.step bindings)
    (fun db operation db' h hguard hstep => Invariant.step hscope horiginal h hguard hstep)
    (invariant_beginTransaction horiginal isVersionChange names) hguard hrun
  exact hinv.contents_abort hscope horiginal orders

/-- A database that is consistent at the beginning, and whose keys are told apart by the hash and by
the comparison alike, gets its contents back. -/
theorem contents_abort_of_guarded {keys : KeySpace} {bindings : Bindings keys.Key KeyPath Value}
    {original : MemoryIDBBackingStore keys.Key KeyPath} {db : OpenDatabase keys.Key KeyPath}
    (horiginal : original.Consistent bindings) {isVersionChange : Bool} {names : List String}
    {operations : List (DatabaseOperation keys.Key KeyPath)}
    (hguard : Guarded (OpenDatabase.step bindings) (OpenDatabase.Guard bindings original)
      (original.beginTransaction isVersionChange names) operations)
    (hrun : run (OpenDatabase.step bindings) (original.beginTransaction isVersionChange names)
      operations = some db) (orders : AbortOrders keys.Key KeyPath) :
    (db.abort bindings orders).contents = original.contents :=
  contents_abort_of_guarded_run horiginal hguard hrun orders

variable (records : Option (HashMap KeySpace.unsignedNumbers.Key ThreadSafeDataBuffer))

def singleStore : MemoryIDBBackingStore KeySpace.unsignedNumbers.Key Unit where
  databaseInfo := singleton 1 "store"
  objects := singleton 0 ⟨1, "store", 1, records, records.map fun map => map.keys.toFinset, ∅⟩
  objectStores := [0]

theorem consistent_singleStore : (singleStore records).Consistent OpenStore.keylessBindings := by
  have honly : ∀ ref ∈ (singleStore records).objectStores, ref = 0 := fun ref href =>
    mem_singleton.mp href
  refine ⟨nodup_singleton 0, ?_, ?_, ?_⟩
  · intro ref href
    obtain rfl := honly ref href
    refine ⟨_, rfl, rfl, nofun, nofun⟩
  · intro ref href ref' href' _ _ _ _ _
    rw [honly ref href, honly ref' href']
  · intro ref href store hstore index index' i i' hidx
    obtain rfl := honly ref href
    cases hstore
    cases hidx

def identityOrders : AbortOrders KeySpace.unsignedNumbers.Key Unit where
  objectStores := .insertion
  restore := fun _ => ⟨.insertion, fun _ => .insertion, fun _ => .insertion⟩
  deletedIndexes := .insertion

/-- A put of a new key is not undone: the key stays, with a null value. -/
theorem contents_abort_ne_of_new_key : (singleStore none).Consistent OpenStore.keylessBindings ∧
      ∃ db, run (OpenDatabase.step OpenStore.keylessBindings)
        ((singleStore none).beginTransaction false ["store"])
        [.putRecord 1 OpenStore.keyOne (some [7]) .insertion] = some db ∧
      (db.abort OpenStore.keylessBindings identityOrders).contents ≠ (singleStore none).contents := by
  refine ⟨consistent_singleStore none, _, rfl, fun h => ?_⟩
  have hrec := congrArg (fun contents => (contents.objectStores 0).map fun store => store.records OpenStore.keyOne) h
  cases hrec

/-- Putting another value under a stored key and clearing the store are undone. -/
theorem contents_abort_of_guarded_put_clear :
    ∃ db, run (OpenDatabase.step OpenStore.keylessBindings)
        ((singleStore (some (singleton OpenStore.keyOne (some [7])))).beginTransaction true [])
        [.putRecord 1 OpenStore.keyOne (some [8]) .insertion, .clearObjectStore 1, .createObjectStore 1 2 "other"] =
          some db ∧
      (db.abort OpenStore.keylessBindings identityOrders).contents =
        (singleStore (some (singleton OpenStore.keyOne (some [7])))).contents := by
  obtain ⟨db, hrun⟩ : ∃ db, run (OpenDatabase.step OpenStore.keylessBindings)
      ((singleStore (some (singleton OpenStore.keyOne (some [7])))).beginTransaction true [])
      [.putRecord 1 OpenStore.keyOne (some [8]) .insertion, .clearObjectStore 1, .createObjectStore 1 2 "other"] =
        some db := ⟨_, rfl⟩
  refine ⟨db, hrun, contents_abort_of_guarded (consistent_singleStore _) ?_ hrun identityOrders⟩
  refine Guarded.cons _ ?_ fun _ _ => ?_
  · intro ref s href hs
    cases href
    cases hs
    intro _
    refine ⟨fun _ => .inl nofun, ?_, ?_, ?_, ?_⟩
    · exact nofun
    · exact nofun
    · intro _ key value _ _ ref index hget
      cases hget
    · exact fun _ => .inl rfl
  · refine Guarded.cons _ (fun ref s _ _ => trivial) fun _ _ => ?_
    exact Guarded.cons _ (fun ref s _ _ => trivial) fun _ _ => guarded_nil _ _ _

end OpenDatabase

end WebKit.IndexedDB
