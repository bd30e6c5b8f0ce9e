import WebKit.IndexedDB.MemoryObjectStore

/-!
What an aborted transaction does to one of its object stores: the contents of
the cleared indexes come back, then the key generator and the cleared records,
and last the values that single keys had are put back by deleting and adding
their records again.

The records and indexes of the start come back when only keys that had a record
were written before the store was cleared, and when nothing written shares a
unique index key with a value that has to be put back.
-/

namespace WebKit.IndexedDB

open List HashMaps
open Option hiding any_eq_true
open Function (update update_apply update_eq_self)

variable {Key KeyPath Value : Type*}

structure RestoreOrders (Key : Type*) where
  values : IterationOrder (Key × ThreadSafeDataBuffer)
  indexes : Key → IterationOrder IndexRef
  records : IndexRef → IterationOrder (Key × ThreadSafeDataBuffer)

namespace OpenStore

variable [LinearOrder Key] (s : OpenStore Key KeyPath)

def replaceIndexValueStores : OpenStore Key KeyPath :=
  { s with store := { s.store with
      indexes := mapValues (fun ref index =>
        match s.transaction.clearedIndexValueStores.lookup ref with
        | some valueStore => index.replaceIndexValueStore valueStore
        | none => index) s.store.indexes } }

def setKeyGeneratorValue (value : ℕ) : OpenStore Key KeyPath :=
  { s with store := { s.store with keyGeneratorValue := value } }

def replaceKeyValueStore : OpenStore Key KeyPath :=
  match s.transaction.clearedKeyValueMap with
  | some (some map) =>
    { s with store := { s.store with
        keyValueStore := some map
        orderedKeys := s.transaction.clearedOrderedKeys.getD none } }
  | _ => s

variable (bindings : Bindings Key KeyPath Value)

def restoreValues (iteration : Key → IterationOrder IndexRef) :
    OpenStore Key KeyPath → List (Key × ThreadSafeDataBuffer) → OpenStore Key KeyPath
  | s, [] => s
  | s, (key, value) :: rest =>
    restoreValues iteration
      ((s.deleteRecord key).addRecord bindings (iteration key) key value).1 rest

def restore (orders : RestoreOrders Key) (s : OpenStore Key KeyPath) : OpenStore Key KeyPath :=
  let s := (s.setKeyGeneratorValue s.transaction.originalKeyGenerator).replaceKeyValueStore
  match s.transaction.originalValues with
  | none => s
  | some map => restoreValues bindings orders.indexes s (orders.values.order (pairs map))

end OpenStore

namespace MemoryObjectStore

variable [LinearOrder Key] {bindings : Bindings Key KeyPath Value}

def maybeRestoreDeletedIndex (bindings : Bindings Key KeyPath Value)
    (iteration : IterationOrder (Key × ThreadSafeDataBuffer)) (store : MemoryObjectStore Key KeyPath)
    (ref : IndexRef) (index : MemoryIndex Key KeyPath) : MemoryObjectStore Key KeyPath :=
  let result := store.populateIndexWithExistingRecords bindings iteration index.clearIndexValueStore
  if store.hasIndex index.info.name then store
  else { store with indexes := store.indexes.insert ref result.1 }

def NoConflict (bindings : Bindings Key KeyPath Value) (store : MemoryObjectStore Key KeyPath)
    (value value' : ThreadSafeDataBuffer) : Prop :=
  ∀ ref index, store.indexes.lookup ref = some index → index.info.unique = true →
    ∀ indexKey ∈ indexKeys bindings index.info value, indexKey ∉ indexKeys bindings index.info value'

variable {store : MemoryObjectStore Key KeyPath} {value value' : ThreadSafeDataBuffer}

/-- Different records of a consistent store have no conflict. -/
theorem Consistent.noConflict (h : store.Consistent bindings) {key key' : Key} (hne : key ≠ key')
    (hrec : store.recordAt key = some value) (hrec' : store.recordAt key' = some value') :
    NoConflict bindings store value value' := by
  intro ref index hget huniq indexKey hkey hkey'
  have hfiles := h.files ref index hget
  exact hne (hfiles.wellFormed.eq_of_mem_valueKeys huniq
    ((hfiles.mem_valueKeys indexKey key).mpr ⟨value, hrec, hkey⟩)
    ((hfiles.mem_valueKeys indexKey key').mpr ⟨value', hrec', hkey'⟩))

def IndexesWithin (store original : MemoryObjectStore Key KeyPath) : Prop :=
  ∀ ref index, store.indexes.lookup ref = some index →
    ∃ index', original.indexes.lookup ref = some index' ∧ index'.info = index.info

variable {store' original : MemoryObjectStore Key KeyPath}

omit [LinearOrder Key] in
theorem IndexesWithin.trans (h : IndexesWithin store store') (h' : IndexesWithin store' original) :
    IndexesWithin store original := by
  intro ref index hget
  obtain ⟨index', hget', hinfo⟩ := h ref index hget
  obtain ⟨index'', hget'', hinfo'⟩ := h' ref index' hget'
  exact ⟨index'', hget'', hinfo'.trans hinfo⟩

theorem indexesWithin_of_plain (h : store'.plain.indexes = store.plain.indexes) :
    IndexesWithin store' store :=
  fun _ _ hget => lookup_info_eq h hget

theorem NoConflict.mono (h : IndexesWithin store original)
    (hfree : NoConflict bindings original value value') :
    NoConflict bindings store value value' := by
  intro ref index hget huniq indexKey
  obtain ⟨index', hget', hinfo⟩ := h ref index hget
  rw [← hinfo] at huniq ⊢
  exact hfree ref index' hget' huniq indexKey

def originalAt (originalValues : Option (HashMap Key ThreadSafeDataBuffer)) (key : Key) :
    Option ThreadSafeDataBuffer :=
  originalValues.bind fun map => map.lookup key

/-- The store differs from the original one only under keys whose original value is known, and
putting those values back cannot run into a unique index. -/
structure Tracks (bindings : Bindings Key KeyPath Value) (original store : MemoryObjectStore Key KeyPath)
    (originalValues : Option (HashMap Key ThreadSafeDataBuffer)) : Prop where
  consistent : store.Consistent bindings
  within : IndexesWithin store original
  recorded : ∀ key value, originalAt originalValues key = some value →
    original.recordAt key = some value ∧ store.keyValueStore ≠ none
  unrecorded : ∀ key, originalAt originalValues key = none →
    store.recordAt key = original.recordAt key
  noConflict : ∀ key value, originalAt originalValues key = some value →
    ∀ other value', other ≠ key → store.recordAt other = some value' →
      NoConflict bindings store value value'

theorem Tracks.restrict {originalValues : Option (HashMap Key ThreadSafeDataBuffer)}
    (h : Tracks bindings original store originalValues)
    (hmap : store'.keyValueStore = store.keyValueStore)
    (hkeys : store'.orderedKeys = store.orderedKeys)
    (hidxs : ∀ ref index, store'.indexes.lookup ref = some index →
      store.indexes.lookup ref = some index) : Tracks bindings original store' originalValues := by
  have hrecAt : store'.recordAt = store.recordAt := by
    funext key
    rw [recordAt, recordAt, hmap]
  have hwithin : IndexesWithin store' store := fun ref index hget =>
    ⟨index, hidxs ref index hget, rfl⟩
  refine ⟨h.consistent.restrict hmap hkeys hidxs, hwithin.trans h.within, ?_, ?_, ?_⟩
  · rw [hmap]
    exact h.recorded
  · rw [hrecAt]
    exact h.unrecorded
  · rw [hrecAt]
    intro key value hval other value' hne hrec
    exact (h.noConflict key value hval other value' hne hrec).mono hwithin

section Changes

variable {key : Key} {originalValues originalValues' : Option (HashMap Key ThreadSafeDataBuffer)}

/-- Writing under a key whose original value is known keeps track of the original store, if the
record shares no unique index key with another value to put back. -/
theorem Tracks.update {record : Option ThreadSafeDataBuffer}
    (h : Tracks bindings original store originalValues) (hcons : store'.Consistent bindings)
    (hidxs : store'.plain.indexes = store.plain.indexes) (hmap : store'.keyValueStore ≠ none)
    (hrecs : store'.recordAt = update store.recordAt key record)
    (hkey : originalAt originalValues key ≠ none)
    (hfree : ∀ value ∈ record, ∀ key' value', key' ≠ key →
      originalAt originalValues key' = some value' → NoConflict bindings store value' value) :
    Tracks bindings original store' originalValues := by
  have hwithin := indexesWithin_of_plain hidxs
  refine ⟨hcons, hwithin.trans h.within, ?_, ?_, ?_⟩
  · exact fun key' value' hval => ⟨(h.recorded key' value' hval).1, hmap⟩
  · intro other hnone
    have hne : other ≠ key := by
      rintro rfl
      exact hkey hnone
    rw [hrecs, Function.update_of_ne hne]
    exact h.unrecorded other hnone
  · intro key' value' hval other value'' hne hrec
    rw [hrecs, update_apply] at hrec
    split_ifs at hrec with hoth
    · have hne' : key' ≠ key := fun heq => hne (hoth.trans heq.symm)
      exact (hfree value'' hrec key' value' hne' hval).mono hwithin
    · exact (h.noConflict key' value' hval other value'' hne hrec).mono hwithin

/-- The value of a key that still has its original one becomes known. -/
theorem Tracks.record (h : Tracks bindings original store originalValues)
    (hkey : store.recordAt key ≠ none ∨ originalAt originalValues key ≠ none)
    (hvals : ∀ other, originalAt originalValues' other =
      if other = key ∧ originalAt originalValues key = none then some ((store.recordAt key).getD none)
      else originalAt originalValues other) :
    Tracks bindings original store originalValues' := by
  have hnew : originalAt originalValues key = none →
      store.recordAt key = some ((store.recordAt key).getD none) := by
    intro hunrec
    obtain ⟨value, hval⟩ :=
      ne_none_iff_exists'.mp (hkey.resolve_right (not_not.mpr hunrec))
    rw [hval, getD_some]
  refine ⟨h.consistent, h.within, fun other value hval => ?_, fun other hnone => ?_,
    fun key' value hval other value' hne hrec => ?_⟩
  · rw [hvals] at hval
    split_ifs at hval with hthis
    · obtain ⟨rfl, hunrec⟩ := hthis
      have hrec := (hnew hunrec).trans hval
      refine ⟨(h.unrecorded other hunrec).symm.trans hrec, fun hnull => ?_⟩
      rw [recordAt, hnull, bind_none] at hrec
      cases hrec
    · exact h.recorded other value hval
  · rw [hvals] at hnone
    split_ifs at hnone
    exact h.unrecorded other hnone
  · rw [hvals] at hval
    split_ifs at hval with hthis
    · obtain ⟨rfl, hunrec⟩ := hthis
      exact h.consistent.noConflict hne.symm ((hnew hunrec).trans hval) hrec
    · exact h.noConflict key' value hval other value' hne hrec

end Changes

end MemoryObjectStore

namespace OpenStore

open MemoryObjectStore

variable [LinearOrder Key] {bindings : Bindings Key KeyPath Value}

variable {s : OpenStore Key KeyPath} {key : Key} {value : ThreadSafeDataBuffer}

theorem addRecord_ok (h : s.store.Consistent bindings) (order : IterationOrder IndexRef)
    (hfree : ∀ other value', s.store.recordAt other = some value' →
      NoConflict bindings s.store value value') :
    (s.addRecord bindings order key value).2 = none := by
  obtain ⟨-, heq⟩ | ⟨error, herr, -⟩ := addRecord_cases bindings s order key value
  · rw [heq]
  · obtain ⟨_, _, -, -, ⟨-, hok, -⟩ | ⟨ref, _, index, _, -, hidx, hput, -⟩⟩ :=
      updateIndexesForPutRecord_spec bindings key value s.store.indexes order
    · rw [hok] at herr
      cases herr
    · have hfiles := h.files ref index hidx
      obtain ⟨huniq, indexKey, hkey, other, hoth⟩ :=
        (hfiles.wellFormed.putValue_error_iff key value).mp (hput ▸ some_ne_none _)
      obtain ⟨value', hrec, hkey'⟩ := (hfiles.mem_valueKeys indexKey other).mp hoth
      exact absurd hkey' (hfree other value' hrec ref index hidx huniq indexKey hkey)

structure SameHeader (store store' : MemoryObjectStore Key KeyPath) : Prop where
  identifier : store.identifier = store'.identifier
  name : store.name = store'.name
  keyGeneratorValue : store.keyGeneratorValue = store'.keyGeneratorValue

omit [LinearOrder Key] in
theorem SameHeader.trans {store store' store'' : MemoryObjectStore Key KeyPath}
    (h : SameHeader store store') (h' : SameHeader store' store'') : SameHeader store store'' :=
  ⟨h.identifier.trans h'.identifier, h.name.trans h'.name,
    h.keyGeneratorValue.trans h'.keyGeneratorValue⟩

theorem sameHeader_deleteRecord (s : OpenStore Key KeyPath) (key : Key) :
    SameHeader (s.deleteRecord key).store s.store := by
  rcases deleteRecord_cases s key with ⟨-, heq⟩ | ⟨map, value, -, -, heq⟩
  all_goals
    rw [heq]
    exact ⟨rfl, rfl, rfl⟩

/-- Adding a record keeps the header and the log, and the store has a map of records then. -/
theorem addRecord_keeps (bindings : Bindings Key KeyPath Value) (s : OpenStore Key KeyPath)
    (order : IterationOrder IndexRef) (key : Key) (value : ThreadSafeDataBuffer) :
    SameHeader (s.addRecord bindings order key value).1.store s.store ∧
      (s.addRecord bindings order key value).1.transaction = s.transaction ∧
      (s.addRecord bindings order key value).1.store.keyValueStore ≠ none := by
  rcases addRecord_cases bindings s order key value with ⟨-, heq⟩ | ⟨error, -, heq⟩
  all_goals
    rw [heq]
    exact ⟨⟨rfl, rfl, rfl⟩, rfl, some_ne_none _⟩

theorem restoreValues_keeps (bindings : Bindings Key KeyPath Value) (s : OpenStore Key KeyPath)
    (order : Key → IterationOrder IndexRef) (values : List (Key × ThreadSafeDataBuffer)) :
    SameHeader (s.restoreValues bindings order values).store s.store ∧
      (s.restoreValues bindings order values).store.plain.indexes = s.store.plain.indexes := by
  induction values generalizing s with
  | nil => exact ⟨⟨rfl, rfl, rfl⟩, rfl⟩
  | cons first rest ih =>
    obtain ⟨hheader, hidxs⟩ :=
      ih ((s.deleteRecord first.1).addRecord bindings (order first.1) first.1 first.2).1
    refine ⟨hheader.trans ((addRecord_keeps ..).1.trans (sameHeader_deleteRecord s first.1)), ?_⟩
    exact hidxs.trans ((indexes_addRecord ..).trans (indexes_deleteRecord s first.1))

variable {original : MemoryObjectStore Key KeyPath}
  {originalValues : Option (HashMap Key ThreadSafeDataBuffer)}

section

variable (horig : original.Consistent bindings)
  (h : Tracks bindings original s.store originalValues)

include horig h

/-- Putting an original value back makes the store agree with the original one there. -/
theorem tracks_restoreValue
    (hval : originalAt originalValues key = some value) (order : IterationOrder IndexRef) :
    Tracks bindings original
        ((s.deleteRecord key).addRecord bindings order key value).1.store originalValues ∧
      ((s.deleteRecord key).addRecord bindings order key value).1.store.recordAt =
        update s.store.recordAt key (some value) := by
  have hdel := consistent_deleteRecord h.consistent key
  have hrecAt := recordAt_deleteRecord s key
  have hplain := indexes_deleteRecord s key
  have hgone : (s.deleteRecord key).store.recordAt key = none := by
    rw [hrecAt, Function.update_self]
  have hok : ((s.deleteRecord key).addRecord bindings order key value).2 = none := by
    apply addRecord_ok hdel
    intro other value' hrec
    rw [hrecAt, update_apply] at hrec
    split_ifs at hrec with hne
    exact (h.noConflict key value hval other value' hne hrec).mono (indexesWithin_of_plain hplain)
  obtain ⟨hcons, hadded, -⟩ := addRecord_of_ok hdel hgone hok
  have hrecs : ((s.deleteRecord key).addRecord bindings order key value).1.store.recordAt =
      update s.store.recordAt key (some value) := by
    have := congrArg PlainStore.records hadded
    simp only [plain, PlainStore.apply, hrecAt] at this
    rw [this, Function.update_idem]
  refine ⟨h.update hcons ((congrArg PlainStore.indexes hadded).trans hplain)
    (addRecord_keeps ..).2.2 hrecs (hval ▸ some_ne_none value) ?_, hrecs⟩
  rintro _ ⟨⟩ key' value' hne hval'
  exact (horig.noConflict hne (h.recorded key' value' hval').1
    (h.recorded key value hval).1).mono h.within

theorem tracks_restoreValues {values : List (Key × ThreadSafeDataBuffer)}
    (hvals : ∀ entry ∈ values, originalAt originalValues entry.1 = some entry.2)
    (order : Key → IterationOrder IndexRef) :
    Tracks bindings original (s.restoreValues bindings order values).store originalValues ∧
      ∀ key, (s.restoreValues bindings order values).store.recordAt key =
        if key ∈ values.map Prod.fst then original.recordAt key else s.store.recordAt key := by
  induction values generalizing s with
  | nil => exact ⟨h, fun key => by simp [restoreValues]⟩
  | cons first rest ih =>
    obtain ⟨key, value⟩ := first
    have hval := hvals _ mem_cons_self
    obtain ⟨htracks, hrecs⟩ := tracks_restoreValue horig h hval (order key)
    obtain ⟨htracks', hrecs'⟩ := ih htracks fun entry hent =>
      hvals entry (mem_cons_of_mem _ hent)
    refine ⟨htracks', fun other => (hrecs' other).trans ?_⟩
    simp only [hrecs, update_apply, map_cons]
    by_cases hrest : other ∈ rest.map Prod.fst
    · rw [if_pos hrest, if_pos (mem_cons_of_mem _ hrest)]
    · rw [if_neg hrest]
      by_cases heq : other = key
      · subst heq
        rw [if_pos rfl, if_pos mem_cons_self]
        exact (h.recorded other value hval).1.symm
      · rw [if_neg heq, if_neg fun hmem => (mem_cons.mp hmem).elim heq hrest]

end

/-- The store that the transaction would bring back before it puts single values back: the store
itself, or what it was when it was cleared. -/
structure Snapshot (s : OpenStore Key KeyPath) (snapshot : MemoryObjectStore Key KeyPath) : Prop where
  notCleared : s.transaction.clearedKeyValueMap = none →
    s.transaction.clearedIndexValueStores = ∅ ∧ snapshot = s.store
  records : ∀ map, s.transaction.clearedKeyValueMap = some map → map = snapshot.keyValueStore ∧
    s.transaction.clearedOrderedKeys = some snapshot.orderedKeys
  indexes : s.transaction.clearedKeyValueMap ≠ none →
    ∀ ref index, s.store.indexes.lookup ref = some index →
      ∃ index', snapshot.indexes.lookup ref = some index' ∧ index'.info = index.info ∧
        s.transaction.clearedIndexValueStores.lookup ref = some index'.records
  null : s.transaction.clearedKeyValueMap = some none →
    s.store.keyValueStore = none ∧ s.store.orderedKeys = none

structure Undoable (bindings : Bindings Key KeyPath Value) (original : MemoryObjectStore Key KeyPath)
    (s : OpenStore Key KeyPath) : Prop where
  identifier : s.store.identifier = original.identifier
  name : s.store.name = original.name
  keyGenerator : s.transaction.originalKeyGenerator = original.keyGeneratorValue
  running : s.transaction.isAborting = false
  tracks : ∃ snapshot, s.Snapshot snapshot ∧
    Tracks bindings original snapshot s.transaction.originalValues

def prepared (s : OpenStore Key KeyPath) : OpenStore Key KeyPath :=
  (s.replaceIndexValueStores.setKeyGeneratorValue
    s.transaction.originalKeyGenerator).replaceKeyValueStore

omit [LinearOrder Key] in
theorem indexes_prepared (s : OpenStore Key KeyPath) (ref : IndexRef) :
    s.prepared.store.indexes.lookup ref = (s.store.indexes.lookup ref).map fun index =>
      match s.transaction.clearedIndexValueStores.lookup ref with
      | some valueStore => index.replaceIndexValueStore valueStore
      | none => index := by
  have heq : s.prepared.store.indexes = s.replaceIndexValueStores.store.indexes := by
    unfold prepared replaceKeyValueStore
    split <;> rfl
  rw [heq, replaceIndexValueStores]
  exact lookup_mapValues ..

theorem tracks_prepared {snapshot : MemoryObjectStore Key KeyPath} (hsnap : s.Snapshot snapshot)
    (h : Tracks bindings original snapshot originalValues) :
    Tracks bindings original s.prepared.store originalValues := by
  have hmaps : s.prepared.store.keyValueStore = snapshot.keyValueStore ∧
      s.prepared.store.orderedKeys = snapshot.orderedKeys := by
    unfold prepared replaceKeyValueStore
    cases hclr : s.transaction.clearedKeyValueMap with
    | none =>
      obtain ⟨-, rfl⟩ := hsnap.notCleared hclr
      simp only [replaceIndexValueStores, setKeyGeneratorValue, hclr, and_self]
    | some map =>
      obtain ⟨hmap, hkeys⟩ := hsnap.records map hclr
      cases map with
      | none =>
        obtain ⟨hnull, hnull'⟩ := hsnap.null hclr
        have hord := h.consistent.ordered
        rw [← hmap, map_none] at hord
        simp only [replaceIndexValueStores, setKeyGeneratorValue, hclr, hnull, hnull', ← hmap,
          hord, and_self]
      | some map =>
        simp only [replaceIndexValueStores, setKeyGeneratorValue, hclr, hkeys, ← hmap,
          getD_some, and_self]
  refine h.restrict hmaps.1 hmaps.2 fun ref index hget => ?_
  rw [indexes_prepared] at hget
  obtain ⟨old, hold, hidx⟩ := map_eq_some_iff.mp hget
  cases hclr : s.transaction.clearedKeyValueMap with
  | none =>
    obtain ⟨hempty, rfl⟩ := hsnap.notCleared hclr
    rw [hempty, AList.lookup_empty] at hidx
    rw [hold, ← hidx]
  | some map =>
    obtain ⟨index', hget', hinfo, hvalStore⟩ :=
      hsnap.indexes (by rw [hclr]; exact some_ne_none _) ref old hold
    rw [hvalStore] at hidx
    rw [hget', ← hidx]
    show some index' = some { old with records := index'.records }
    rw [← hinfo]

theorem plain_indexes_prepared (s : OpenStore Key KeyPath) :
    s.prepared.store.plain.indexes = s.store.plain.indexes := by
  funext ref
  simp only [plain, indexes_prepared, Option.map_map]
  congr 1
  funext index
  cases s.transaction.clearedIndexValueStores.lookup ref <;> rfl

theorem restore_eq (bindings : Bindings Key KeyPath Value) (orders : RestoreOrders Key)
    (s : OpenStore Key KeyPath) :
    s.replaceIndexValueStores.restore bindings orders =
      match s.transaction.originalValues with
      | none => s.prepared
      | some map =>
        s.prepared.restoreValues bindings orders.indexes (orders.values.order (pairs map)) := by
  have htx : s.prepared.transaction = s.transaction := by
    unfold prepared replaceKeyValueStore
    split <;> rfl
  rw [← htx]
  rfl

def aborting (s : OpenStore Key KeyPath) : OpenStore Key KeyPath :=
  { s with transaction := { s.transaction with isAborting := true } }

/-- A store that the transaction can bring back has its records, key generator and remaining
indexes back after the abort. -/
theorem Undoable.restore (h : s.Undoable bindings original)
    (horig : original.Consistent bindings) (orders : RestoreOrders Key) :
    (s.aborting.replaceIndexValueStores.restore bindings orders).store.Consistent bindings ∧
      (s.aborting.replaceIndexValueStores.restore bindings orders).store.recordAt =
        original.recordAt ∧
      SameHeader (s.aborting.replaceIndexValueStores.restore bindings orders).store original ∧
      (s.aborting.replaceIndexValueStores.restore bindings orders).store.plain.indexes =
        s.store.plain.indexes := by
  obtain ⟨snapshot, hsnap, htracks⟩ := h.tracks
  have hsnap' : s.aborting.Snapshot snapshot := { hsnap with }
  have hprep := tracks_prepared hsnap' htracks
  have hheader : SameHeader s.aborting.prepared.store original := by
    have hkeep : s.aborting.prepared.store.identifier = s.store.identifier ∧
        s.aborting.prepared.store.name = s.store.name ∧
        s.aborting.prepared.store.keyGeneratorValue = s.transaction.originalKeyGenerator := by
      unfold prepared replaceKeyValueStore
      split <;> exact ⟨rfl, rfl, rfl⟩
    exact ⟨hkeep.1.trans h.identifier, hkeep.2.1.trans h.name, hkeep.2.2.trans h.keyGenerator⟩
  have hidxs := plain_indexes_prepared s.aborting
  rw [restore_eq]
  cases hvals : s.aborting.transaction.originalValues with
  | none =>
    rw [show s.transaction.originalValues = none from hvals] at hprep
    exact ⟨hprep.consistent, funext fun key => hprep.unrecorded key rfl, hheader, hidxs⟩
  | some map =>
    rw [show s.transaction.originalValues = some map from hvals] at hprep
    obtain ⟨hkept, hidxs'⟩ := restoreValues_keeps bindings s.aborting.prepared orders.indexes
      (orders.values.order (pairs map))
    obtain ⟨hfinal, hrecs⟩ := tracks_restoreValues horig hprep
      (fun entry hent => mem_pairs.mp (orders.values.mem_order.mp hent)) orders.indexes
    refine ⟨hfinal.consistent, funext fun key => (hrecs key).trans ?_, hkept.trans hheader,
      hidxs'.trans hidxs⟩
    split_ifs with hkey
    · rfl
    · apply hprep.unrecorded
      by_contra hrec
      obtain ⟨value, hval⟩ := ne_none_iff_exists'.mp hrec
      apply hkey
      exact mem_map_of_mem (orders.values.mem_order.mpr (mem_pairs.mpr hval))

theorem undoable_start (h : original.Consistent bindings) (isVersionChange : Bool) :
    (⟨original, .start isVersionChange original.keyGeneratorValue⟩ : OpenStore Key KeyPath).Undoable
      bindings original where
  identifier := rfl
  name := rfl
  keyGenerator := rfl
  running := rfl
  tracks := by
    refine ⟨original, ⟨fun _ => ⟨rfl, rfl⟩, nofun, fun hne => absurd rfl hne, nofun⟩, h,
      fun ref index hget => ⟨index, hget, rfl⟩, nofun,
      fun key _ => rfl, nofun⟩

/-- While the store has not been cleared, the first value of each changed key is kept. -/
theorem originalAt_recordValueChanged {transaction : StoreTransaction Key}
    (hrunning : transaction.isAborting = false) (hclr : transaction.clearedKeyValueMap = none)
    (key : Key) (value : Option ThreadSafeDataBuffer) (other : Key) :
    originalAt (transaction.recordValueChanged key value).originalValues other =
      if other = key ∧ originalAt transaction.originalValues key = none then some (value.getD none)
      else originalAt transaction.originalValues other := by
  have hgetD : ∀ k, (transaction.originalValues.getD ∅).lookup k =
      originalAt transaction.originalValues k := by
    intro k
    cases transaction.originalValues <;> simp [originalAt]
  unfold StoreTransaction.recordValueChanged
  simp only [hrunning, hclr, isSome_none, Bool.false_eq_true, if_false, hgetD]
  cases hkey : originalAt transaction.originalValues key with
  | none =>
    simp only [originalAt, bind_some, lookup_insert_eq, and_true]
    rw [← originalAt, ← hgetD]
  | some _ =>
    simp only [reduceCtorEq, and_false, if_false]
    exact hgetD other

/-- Apart from the changed values, a transaction keeps what it has recorded. -/
theorem recordValueChanged_keeps (transaction : StoreTransaction Key) (key : Key)
    (value : Option ThreadSafeDataBuffer) :
    transaction.recordValueChanged key value = { transaction with
      originalValues := (transaction.recordValueChanged key value).originalValues } := by
  unfold StoreTransaction.recordValueChanged
  split_ifs
  · rfl
  · rfl
  · dsimp only
    split <;> rfl

/-- An abort knows what to do about the key: it has a record, its first value is kept, or all
records of the store are. -/
def Restorable (s : OpenStore Key KeyPath) (key : Key) : Prop :=
  s.transaction.clearedKeyValueMap = none → s.store.recordAt key ≠ none ∨
    originalAt s.transaction.originalValues key ≠ none

omit [LinearOrder Key] in
/-- What stays true of a cleared store as long as its indexes are among those cleared. -/
theorem Snapshot.of_cleared {s' : OpenStore Key KeyPath} {snapshot : MemoryObjectStore Key KeyPath}
    (h : s.Snapshot snapshot) (hclr : s.transaction.clearedKeyValueMap ≠ none)
    (htx : s'.transaction = s.transaction) (hwithin : IndexesWithin s'.store s.store)
    (hnull : s.transaction.clearedKeyValueMap = some none →
      s'.store.keyValueStore = none ∧ s'.store.orderedKeys = none) : s'.Snapshot snapshot := by
  refine ⟨fun hnone => absurd (htx ▸ hnone) hclr, ?_, ?_, ?_⟩
  · rw [htx]
    exact h.records
  · intro _ ref index hget
    obtain ⟨old, hold, hinfo⟩ := hwithin ref index hget
    obtain ⟨index', hget', hinfo', hvalStore⟩ := h.indexes hclr ref old hold
    rw [htx]
    exact ⟨index', hget', hinfo'.trans hinfo, hvalStore⟩
  · rw [htx]
    exact hnull

theorem transaction_deleteRecord (s : OpenStore Key KeyPath) (key : Key) :
    (s.deleteRecord key).transaction =
      s.transaction.recordValueChanged key (s.store.recordAt key) := by
  rcases deleteRecord_cases s key with ⟨hnone, heq⟩ | ⟨map, value, hmap, hval, heq⟩
  · rw [heq, hnone]
  · rw [heq, recordAt, hmap, bind_some, hval]

omit [LinearOrder Key] in
/-- A store that has not been cleared is its own snapshot. -/
theorem Snapshot.of_notCleared (hclr : s.transaction.clearedKeyValueMap = none)
    (hidxs : s.transaction.clearedIndexValueStores = ∅) : s.Snapshot s.store :=
  ⟨fun _ => ⟨hidxs, rfl⟩, fun _ hmap => (nomatch hclr.symm.trans hmap),
    fun hne => absurd hclr hne, fun hnull => (nomatch hclr.symm.trans hnull)⟩

/-- Deleting a record keeps track of the original store. -/
theorem tracks_deleteRecord (hrunning : s.transaction.isAborting = false)
    (hclr : s.transaction.clearedKeyValueMap = none)
    (h : Tracks bindings original s.store s.transaction.originalValues)
    (hkey : s.store.recordAt key ≠ none ∨ originalAt s.transaction.originalValues key ≠ none) :
    Tracks bindings original (s.deleteRecord key).store
      (s.deleteRecord key).transaction.originalValues := by
  have hvals := originalAt_recordValueChanged hrunning hclr key (s.store.recordAt key)
  rw [← transaction_deleteRecord] at hvals
  have hrec := h.record hkey hvals
  have hknown : originalAt (s.deleteRecord key).transaction.originalValues key ≠ none := by
    rw [hvals]
    split_ifs with hnew
    · exact some_ne_none _
    · exact fun hnone => hnew ⟨rfl, hnone⟩
  refine hrec.update (consistent_deleteRecord h.consistent key) (indexes_deleteRecord s key) ?_
    (recordAt_deleteRecord s key) hknown nofun
  rcases deleteRecord_cases s key with ⟨-, heq⟩ | ⟨map, value, -, -, heq⟩
  · obtain ⟨value, hval⟩ := ne_none_iff_exists'.mp hknown
    rw [heq]
    exact (hrec.recorded key value hval).2
  · rw [heq]
    exact some_ne_none _

section

variable (h : s.Undoable bindings original)

include h

theorem Undoable.deleteRecord (hkey : s.Restorable key) :
    (s.deleteRecord key).Undoable bindings original := by
  obtain ⟨snapshot, hsnap, htracks⟩ := h.tracks
  have hheader := sameHeader_deleteRecord s key
  have hkeeps := recordValueChanged_keeps s.transaction key (s.store.recordAt key)
  rw [← transaction_deleteRecord] at hkeeps
  refine ⟨hheader.identifier.trans h.identifier, hheader.name.trans h.name, ?_, ?_, ?_⟩
  · rw [hkeeps]
    exact h.keyGenerator
  · rw [hkeeps]
    exact h.running
  · by_cases hclr : s.transaction.clearedKeyValueMap = none
    · obtain ⟨hidxs, rfl⟩ := hsnap.notCleared hclr
      refine ⟨(s.deleteRecord key).store, Snapshot.of_notCleared ?_ ?_,
        tracks_deleteRecord h.running hclr htracks (hkey hclr)⟩
      · rw [hkeeps]
        exact hclr
      · rw [hkeeps]
        exact hidxs
    · have htx : (s.deleteRecord key).transaction = s.transaction := by
        rw [transaction_deleteRecord, StoreTransaction.recordValueChanged,
          if_pos (isSome_iff_ne_none.mpr hclr), ite_self]
      refine ⟨snapshot, hsnap.of_cleared hclr htx
        (indexesWithin_of_plain (indexes_deleteRecord s key)) ?_, ?_⟩
      · intro hnull
        rw [OpenStore.deleteRecord, (hsnap.null hnull).1]
        exact hsnap.null hnull
      · rw [htx]
        exact htracks

theorem Undoable.deleteRangeLoop (range : IDBKeyRangeData Key) :
    (s.deleteRangeLoop bindings range).Undoable bindings original := by
  induction s, range using deleteRangeLoop.induct bindings with
  | case1 s range hnone =>
    rw [OpenStore.deleteRangeLoop, hnone]
    exact h
  | case2 s range key hsome ih =>
    rw [OpenStore.deleteRangeLoop, hsome]
    apply ih
    apply h.deleteRecord
    intro hclr
    obtain ⟨snapshot, hsnap, htracks⟩ := h.tracks
    obtain ⟨-, rfl⟩ := hsnap.notCleared hclr
    obtain ⟨-, -, hstore⟩ | ⟨hmem, -, -, -⟩ := lowestKeyWithRecordInRange_cases hsome
    · exact .inl hstore
    · exact .inl ((htracks.consistent.mem_orderedKeys key).mp hmem)

theorem Undoable.deleteRange {range : IDBKeyRangeData Key}
    (hguard : range.isExactlyOneKey bindings → ∀ key ∈ range.lowerKey, s.Restorable key) :
    (s.deleteRange bindings range).Undoable bindings original := by
  unfold OpenStore.deleteRange
  split
  · rename_i key hkey
    split_ifs with hexact
    · exact h.deleteRecord (hguard hexact key hkey)
    · exact h.deleteRangeLoop range
  · exact h.deleteRangeLoop range

/-- Neither the key generator nor a lost index matters to an abort. -/
theorem Undoable.restrict (value : ℕ) {indexes : HashMap IndexRef (MemoryIndex Key KeyPath)}
    (hidxs : ∀ ref index, indexes.lookup ref = some index →
      s.store.indexes.lookup ref = some index) :
    Undoable bindings original
      { s with store := { s.store with keyGeneratorValue := value, indexes := indexes } } := by
  obtain ⟨snapshot, hsnap, htracks⟩ := h.tracks
  refine { h with tracks := ?_ }
  by_cases hclr : s.transaction.clearedKeyValueMap = none
  · obtain ⟨hempty, rfl⟩ := hsnap.notCleared hclr
    exact ⟨_, Snapshot.of_notCleared hclr hempty, htracks.restrict rfl rfl hidxs⟩
  · exact ⟨snapshot, hsnap.of_cleared hclr rfl
      (fun ref index hget => ⟨index, hidxs ref index hget, rfl⟩) hsnap.null, htracks⟩

theorem Undoable.setKeyGeneratorValue (value : ℕ) :
    (s.setKeyGeneratorValue value).Undoable bindings original :=
  h.restrict value fun _ _ hget => hget

end

def unregisterIndex (s : OpenStore Key KeyPath) (ref : IndexRef) : OpenStore Key KeyPath :=
  { s with store := { s.store with indexes := s.store.indexes.erase ref } }

theorem Undoable.unregisterIndex (h : s.Undoable bindings original) (ref : IndexRef) :
    (s.unregisterIndex ref).Undoable bindings original := by
  refine h.restrict s.store.keyGeneratorValue fun other index hget => ?_
  rw [lookup_erase_eq] at hget
  split_ifs at hget
  exact hget

omit [LinearOrder Key] in
/-- Clearing keeps the indexes, and adds the contents of those not yet cleared to the log. -/
theorem lookup_indexes_clear (s : OpenStore Key KeyPath) {ref : IndexRef}
    {index' : MemoryIndex Key KeyPath} (hget : s.clear.store.indexes.lookup ref = some index') :
    ∃ index, s.store.indexes.lookup ref = some index ∧ index.info = index'.info ∧
      s.clear.transaction.clearedIndexValueStores.lookup ref =
        (s.transaction.clearedIndexValueStores.lookup ref).or (some index.records) := by
  have hlog : s.clear.transaction.clearedIndexValueStores =
      s.transaction.clearedIndexValueStores ∪
        mapValues (fun _ index => index.records) s.store.indexes := by
    unfold OpenStore.clear
    split_ifs <;> rfl
  rw [indexes_clear_eq, lookup_mapValues] at hget
  obtain ⟨index, hidx, rfl⟩ := map_eq_some_iff.mp hget
  refine ⟨index, hidx, ?_, ?_⟩
  · split_ifs <;> rfl
  · rw [hlog, lookup_union_eq, lookup_mapValues, hidx, map_some]

theorem Undoable.clear (h : s.Undoable bindings original) : s.clear.Undoable bindings original := by
  obtain ⟨snapshot, hsnap, htracks⟩ := h.tracks
  have hkeeps : s.clear.store.identifier = s.store.identifier ∧ s.clear.store.name = s.store.name ∧
      s.clear.transaction.originalKeyGenerator = s.transaction.originalKeyGenerator ∧
      s.clear.transaction.isAborting = s.transaction.isAborting ∧
      s.clear.transaction.originalValues = s.transaction.originalValues := by
    unfold OpenStore.clear
    split_ifs <;> exact ⟨rfl, rfl, rfl, rfl, rfl⟩
  obtain ⟨hid, hname, hgenerator, haborting, hvals⟩ := hkeeps
  refine ⟨hid.trans h.identifier, hname.trans h.name, hgenerator.trans h.keyGenerator,
    haborting.trans h.running, ?_⟩
  rw [hvals]
  by_cases hclr : s.transaction.clearedKeyValueMap = none
  · obtain ⟨hempty, rfl⟩ := hsnap.notCleared hclr
    have hclear : s.clear.transaction.clearedKeyValueMap = some s.store.keyValueStore ∧
        s.clear.transaction.clearedOrderedKeys = some s.store.orderedKeys ∧
        s.clear.store.keyValueStore = none ∧ s.clear.store.orderedKeys = none := by
      unfold OpenStore.clear
      simp [hclr]
    obtain ⟨hmap, hkeys, hnull, hnull'⟩ := hclear
    refine ⟨s.store, ⟨fun hnone => ?_, fun map hmap' => ?_, fun _ ref index hget => ?_,
      fun _ => ⟨hnull, hnull'⟩⟩, htracks⟩
    · rw [hmap] at hnone
      cases hnone
    · exact ⟨some.inj (hmap'.symm.trans hmap), hkeys⟩
    · obtain ⟨old, hold, hinfo, hlog⟩ := lookup_indexes_clear s hget
      rw [hempty, AList.lookup_empty, none_or] at hlog
      exact ⟨old, hold, hinfo, hlog⟩
  · have hclear : s.clear.transaction.clearedKeyValueMap = s.transaction.clearedKeyValueMap ∧
        s.clear.transaction.clearedOrderedKeys = s.transaction.clearedOrderedKeys ∧
        s.clear.store.keyValueStore = s.store.keyValueStore ∧
        s.clear.store.orderedKeys = s.store.orderedKeys := by
      unfold OpenStore.clear
      simp [isSome_iff_ne_none.mpr hclr]
    obtain ⟨hmap, hkeys, hstore, hstore'⟩ := hclear
    refine ⟨snapshot, ⟨fun hnone => absurd (hmap.symm.trans hnone) hclr, ?_, ?_, ?_⟩, htracks⟩
    · rw [hmap, hkeys]
      exact hsnap.records
    · intro _ ref index hget
      obtain ⟨old, hold, hinfo, hlog⟩ := lookup_indexes_clear s hget
      obtain ⟨index', hget', hinfo', hvalStore⟩ := hsnap.indexes hclr ref old hold
      rw [hvalStore, some_or] at hlog
      exact ⟨index', hget', hinfo'.trans hinfo, hlog⟩
    · rw [hmap, hstore, hstore']
      exact hsnap.null

def PutsCleanly (bindings : Bindings Key KeyPath Value) (iteration : IterationOrder IndexRef)
    (s : OpenStore Key KeyPath) (key : Key) (value : ThreadSafeDataBuffer) : Prop :=
  (s.addRecord bindings iteration key value).2 = none ∨
    (putIndexKeys bindings key (bindings.deserializeIDBValueToJSValue value)
      (iteration.order s.store.indexes.keys) s.store.indexes []).2.1 = []

variable {order : IterationOrder IndexRef}

/-- A record that is refused cleanly leaves the store as it was. -/
theorem addRecord_of_refused (h : s.store.Consistent bindings) (hfree : s.store.recordAt key = none)
    (hclean : s.PutsCleanly bindings order key value)
    (herr : (s.addRecord bindings order key value).2 ≠ none) :
    (s.addRecord bindings order key value).1.store.Consistent bindings ∧
      (s.addRecord bindings order key value).1.store.recordAt = s.store.recordAt := by
  have hidxs := indexes_addRecord bindings s order key value
  have hfst := hclean.resolve_left herr
  obtain ⟨-, heq⟩ | ⟨error, hupdate, heq⟩ := addRecord_cases bindings s order key value
  · rw [heq] at herr
    exact absurd rfl herr
  · obtain ⟨taken, _, -, -, ⟨-, hok, -⟩ | ⟨ref, _, _, _, -, hrefuse, hput, -, hchanged, hget⟩⟩ :=
      updateIndexesForPutRecord_spec bindings key value s.store.indexes order
    · rw [hok] at hupdate
      cases hupdate
    have hnone : ∀ other ∈ taken, ∀ index, s.store.indexes.lookup other = some index →
        MemoryIndex.valueIndexKey bindings index.info value = none := by
      intro other hoth index hidx
      have hfiled := filterMap_eq_nil_iff.mp (hchanged.symm.trans hfst) other hoth
      simpa [hidx] using hfiled
    have hrecAt : (s.addRecord bindings order key value).1.store.recordAt = s.store.recordAt := by
      rw [recordAt_addRecord_of_error herr, ← hfree, update_eq_self]
    refine ⟨⟨?_, ?_, h.identifiers_of_plain hidxs⟩, hrecAt⟩
    · rw [heq, h.ordered]
      simp only [map_some, toFinset_keys_erase, toFinset_keys_insert]
      cases s.store.keyValueStore <;> rfl
    · intro ref' index' hget'
      have hrecs : (s.addRecord bindings order key value).1.store.records = s.store.records := by
        simp only [records, hrecAt]
      rw [hrecs]
      rw [heq, hget] at hget'
      obtain ⟨index, hidx, rfl⟩ := map_eq_some_iff.mp hget'
      have hfiles := h.files ref' index hidx
      split_ifs with htaken hsame
      · rw [MemoryIndex.takenBack, hnone ref' htaken index hidx]
        exact hfiles
      · rw [hsame, hrefuse] at hidx
        cases hidx
        exact hfiles.putValue_of_error (hput ▸ some_ne_none _)
      · exact hfiles

/-- What an abort needs of a record that is put into the store: the map or the first value of the
key is kept, and the record is put cleanly. -/
structure PutRestorable (bindings : Bindings Key KeyPath Value) (iteration : IterationOrder IndexRef)
    (s : OpenStore Key KeyPath) (key : Key) (value : ThreadSafeDataBuffer) : Prop where
  mapped : s.transaction.clearedKeyValueMap ≠ some none
  recorded : s.transaction.clearedKeyValueMap = none →
    originalAt s.transaction.originalValues key ≠ none
  noConflict : s.transaction.clearedKeyValueMap = none → ∀ key' value', key' ≠ key →
    originalAt s.transaction.originalValues key' = some value' →
      NoConflict bindings s.store value' value
  clean : s.transaction.clearedKeyValueMap = none → s.PutsCleanly bindings iteration key value

/-- Putting a record keeps track of the original store. -/
theorem tracks_addRecord (h : Tracks bindings original s.store s.transaction.originalValues)
    (hclr : s.transaction.clearedKeyValueMap = none) (hfree : s.store.recordAt key = none)
    (hguard : s.PutRestorable bindings order key value) :
    Tracks bindings original (s.addRecord bindings order key value).1.store
      s.transaction.originalValues := by
  have hidxs := indexes_addRecord bindings s order key value
  have hmap := (addRecord_keeps bindings s order key value).2.2
  by_cases hok : (s.addRecord bindings order key value).2 = none
  · obtain ⟨hcons, hplain, -⟩ := addRecord_of_ok h.consistent hfree hok
    refine h.update hcons hidxs hmap (congrArg PlainStore.records hplain)
      (hguard.recorded hclr) ?_
    rintro _ ⟨⟩
    exact hguard.noConflict hclr
  · obtain ⟨hcons, hrecAt⟩ :=
      addRecord_of_refused h.consistent hfree (hguard.clean hclr) hok
    rw [← update_eq_self key s.store.recordAt, hfree] at hrecAt
    exact h.update hcons hidxs hmap hrecAt (hguard.recorded hclr)
      nofun

theorem Undoable.addRecord (h : s.Undoable bindings original) (hfree : s.store.recordAt key = none)
    (hguard : s.PutRestorable bindings order key value) :
    (s.addRecord bindings order key value).1.Undoable bindings original := by
  obtain ⟨snapshot, hsnap, htracks⟩ := h.tracks
  obtain ⟨hheader, htx, -⟩ := addRecord_keeps bindings s order key value
  refine ⟨hheader.identifier.trans h.identifier, hheader.name.trans h.name, ?_, ?_, ?_⟩
  · rw [htx]
    exact h.keyGenerator
  · rw [htx]
    exact h.running
  · rw [htx]
    by_cases hclr : s.transaction.clearedKeyValueMap = none
    · obtain ⟨hempty, rfl⟩ := hsnap.notCleared hclr
      refine ⟨(s.addRecord bindings order key value).1.store, Snapshot.of_notCleared ?_ ?_,
        tracks_addRecord htracks hclr hfree hguard⟩
      · rw [htx]
        exact hclr
      · rw [htx]
        exact hempty
    · exact ⟨snapshot, hsnap.of_cleared hclr htx
        (indexesWithin_of_plain (indexes_addRecord bindings s order key value))
        (fun hnull => absurd hnull hguard.mapped), htracks⟩

theorem indexes_deleteRange (s : OpenStore Key KeyPath) (range : IDBKeyRangeData Key) :
    (s.deleteRange bindings range).store.plain.indexes = s.store.plain.indexes :=
  deleteRange_keeps (P := fun t => t.store.plain.indexes = s.store.plain.indexes)
    (fun t key h => (indexes_deleteRecord t key).trans h) rfl range

/-- The indexes of the store are among the original ones. -/
theorem Undoable.within (h : s.Undoable bindings original) : IndexesWithin s.store original := by
  obtain ⟨snapshot, hsnap, htracks⟩ := h.tracks
  by_cases hclr : s.transaction.clearedKeyValueMap = none
  · obtain ⟨-, rfl⟩ := hsnap.notCleared hclr
    exact htracks.within
  · refine IndexesWithin.trans (fun ref index hget => ?_) htracks.within
    obtain ⟨index', hget', hinfo, -⟩ := hsnap.indexes hclr ref index hget
    exact ⟨index', hget', hinfo⟩

end OpenStore

/-- Unless no record is undefined or null, none has a key of the index. -/
def Repopulates [DecidableEq Key] (bindings : Bindings Key KeyPath Value)
    (info : IDBIndexInfo KeyPath) (records : Set (Key × ThreadSafeDataBuffer)) : Prop :=
  (∃ record ∈ records, bindings.isUndefinedOrNull record.2 = true) →
    ∀ record ∈ records, indexKeys bindings info record.2 = []

namespace MemoryObjectStore

variable [LinearOrder Key] {bindings : Bindings Key KeyPath Value}

variable {index : MemoryIndex Key KeyPath} {store original : MemoryObjectStore Key KeyPath}
  {info : IDBIndexInfo KeyPath} {ref : IndexRef}

/-- No record is refused when those of a unique index share no key. -/
theorem populateIndex_ok {records : Set (Key × ThreadSafeDataBuffer)}
    (h : index.Files bindings records) {existing : List (Key × ThreadSafeDataBuffer)}
    (hnodup : (existing.map Prod.fst).Nodup)
    (hfresh : ∀ record ∈ records, record.1 ∉ existing.map Prod.fst)
    (hfree : index.info.unique → ∀ record record', (record ∈ records ∨ record ∈ existing) →
      record' ∈ existing → record.1 ≠ record'.1 → ∀ indexKey ∈ indexKeys bindings index.info record.2,
        indexKey ∉ indexKeys bindings index.info record'.2) :
    (populateIndex bindings index existing).2 = none := by
  induction existing generalizing index records with
  | nil => rfl
  | cons first rest ih =>
    obtain ⟨key, value⟩ := first
    obtain ⟨hkey, hrest⟩ := nodup_cons.mp hnodup
    rw [populateIndex_cons]
    split_ifs
    · rfl
    · split
      · rename_i error herr
        obtain ⟨huniq, indexKey, hindexKey, other, hoth⟩ :=
          (h.wellFormed.putValue_error_iff key value).mp (herr ▸ some_ne_none error)
        obtain ⟨value', hrec, hindexKey'⟩ := (h.mem_valueKeys indexKey other).mp hoth
        have hne : other ≠ key := fun heq =>
          hfresh (other, value') hrec (heq ▸ mem_cons_self)
        exact absurd hindexKey (hfree huniq (other, value') (key, value) (.inl hrec)
          mem_cons_self hne indexKey hindexKey')
      · rename_i hok
        refine ih (h.putValue hok) hrest ?_ ?_
        · rintro record (rfl | hrec) hmem
          · exact hkey hmem
          · exact hfresh record hrec (mem_cons_of_mem _ hmem)
        · rw [MemoryIndex.info_putValue]
          intro huniq record record' hrec hrec'
          apply hfree huniq record record' _ (mem_cons_of_mem _ hrec')
          rcases hrec with (rfl | hrec) | hrec
          · exact .inr mem_cons_self
          · exact .inl hrec
          · exact .inr (mem_cons_of_mem _ hrec)

theorem noKeysPastSkipped_of_repopulates (h : Repopulates bindings info store.records)
    (order : IterationOrder (Key × ThreadSafeDataBuffer))
    (map : HashMap Key ThreadSafeDataBuffer) (hmap : store.keyValueStore = some map) :
    NoKeysPastSkipped bindings info (order.order (pairs map)) := by
  intro before skipped after heq hskipped record hrec
  refine h ⟨skipped, (mem_order_iff order hmap).mp ?_, hskipped⟩ record ((mem_order_iff order hmap).mp ?_)
  · rw [heq]
    exact mem_append_right _ mem_cons_self
  · rw [heq]
    exact mem_append_right _ (mem_cons_of_mem _ hrec)

/-- An original index can be filled again from the original records. -/
theorem files_repopulated (horig : original.Consistent bindings)
    (hrecs : store.recordAt = original.recordAt) (hinfo : original.plain.indexes ref = some info)
    (hrepop : Repopulates bindings info original.records)
    (order : IterationOrder (Key × ThreadSafeDataBuffer)) :
    (store.populateIndexWithExistingRecords bindings order (MemoryIndex.create info)).1.Files
        bindings store.records ∧
      (store.populateIndexWithExistingRecords bindings order (MemoryIndex.create info)).1.info =
        info := by
  have hset : store.records = original.records := by simp only [records, hrecs]
  refine files_populateIndexWithExistingRecords (MemoryIndex.files_create info)
    (fun map hmap => noKeysPastSkipped_of_repopulates (hset ▸ hrepop) order map hmap) ?_
  unfold populateIndexWithExistingRecords
  cases hmap : store.keyValueStore with
  | none => rfl
  | some map =>
    have hstore : ∀ record ∈ order.order (pairs map), original.recordAt record.1 = some record.2 := by
      intro record hrec
      rw [← hrecs]
      exact (mem_order_iff order hmap).mp hrec
    apply populateIndex_ok (MemoryIndex.files_create info)
    · exact nodup_order_fst order map
    · exact fun record hrec => absurd hrec (Set.notMem_empty record)
    · intro huniq record record' hrec hrec' hne
      obtain ⟨index, hidx, rfl⟩ := map_eq_some_iff.mp hinfo
      have hmem := hrec.resolve_left (Set.notMem_empty record)
      exact horig.noConflict hne (hstore record hmem) (hstore record' hrec') ref index hidx
        huniq

def DistinctNames (store : MemoryObjectStore Key KeyPath) : Prop :=
  ∀ ref ref' index index', store.indexes.lookup ref = some index →
    store.indexes.lookup ref' = some index' → index.info.name = index'.info.name → ref = ref'

/-- An original index is the one of its name, so it is registered whenever its name is. -/
theorem hasIndex_iff_of_within (hnames : DistinctNames original)
    (hwithin : IndexesWithin store original) (hinfo : original.plain.indexes ref = some info) :
    store.hasIndex info.name ↔ store.plain.indexes ref = some info := by
  obtain ⟨index, hidx, rfl⟩ := map_eq_some_iff.mp hinfo
  unfold hasIndex
  rw [any_eq_true]
  constructor
  · intro h
    obtain ⟨⟨other, found⟩, hmem, hname⟩ := h
    have hget := mem_pairs.mp hmem
    obtain ⟨index', hidx', hinfo'⟩ := hwithin other found hget
    have heq : other = ref :=
      hnames other ref index' index hidx' hidx (by rw [hinfo']; exact of_decide_eq_true hname)
    subst heq
    rw [some.inj (hidx.symm.trans hidx'), hinfo']
    exact map_eq_some_iff.mpr ⟨found, hget, rfl⟩
  · intro h
    obtain ⟨found, hget, hfound⟩ := map_eq_some_iff.mp h
    exact ⟨(ref, found), mem_pairs.mpr hget, by simp only [hfound, decide_true]⟩

theorem Consistent.insertIndex (horig : original.Consistent bindings)
    (h : store.Consistent bindings) (hwithin : IndexesWithin store original)
    (hinfo : original.plain.indexes ref = some index.info)
    (hfiles : index.Files bindings store.records) :
    { store with indexes := store.indexes.insert ref index }.Consistent bindings := by
  have hcases : ∀ other found, (store.indexes.insert ref index).lookup other = some found →
      original.plain.indexes other = some found.info ∧ found.Files bindings store.records := by
    intro other found hget
    rw [lookup_insert_eq] at hget
    split_ifs at hget with heq
    · cases hget
      rw [heq]
      exact ⟨hinfo, hfiles⟩
    · obtain ⟨index', hget', hinfo'⟩ := hwithin other found hget
      exact ⟨map_eq_some_iff.mpr ⟨index', hget', hinfo'⟩, h.files other found hget⟩
  refine ⟨h.ordered, fun other found hget => (hcases other found hget).2, ?_⟩
  intro other other' found found' hget hget' heq
  obtain ⟨first, hfst, hfirstInfo⟩ := map_eq_some_iff.mp (hcases other found hget).1
  obtain ⟨second, hsnd, hsecondInfo⟩ := map_eq_some_iff.mp (hcases other' found' hget').1
  exact horig.identifiers other other' first second hfst hsnd
    (by rw [hfirstInfo, hsecondInfo, heq])

theorem indexesWithin_iff :
    IndexesWithin store original ↔ ∀ ref info, store.plain.indexes ref = some info →
      original.plain.indexes ref = some info := by
  constructor
  · intro h ref info hinfo
    obtain ⟨index, hidx, rfl⟩ := map_eq_some_iff.mp hinfo
    obtain ⟨index', hidx', hinfo'⟩ := h ref index hidx
    exact map_eq_some_iff.mpr ⟨index', hidx', hinfo'⟩
  · intro h ref index hidx
    exact map_eq_some_iff.mp (h ref index.info (map_eq_some_iff.mpr ⟨index, hidx, rfl⟩))

/-- Two stores have the same indexes when one has those of the other and as many. -/
theorem IndexesWithin.indexes_eq (h : IndexesWithin store original)
    (hall : ∀ ref, original.plain.indexes ref ≠ none → store.plain.indexes ref ≠ none) :
    store.plain.indexes = original.plain.indexes := by
  funext ref
  cases hinfo : store.plain.indexes ref with
  | none =>
    by_contra hne
    exact hall ref (Ne.symm hne) hinfo
  | some info => exact (indexesWithin_iff.mp h ref info hinfo).symm

structure Restored (bindings : Bindings Key KeyPath Value)
    (original store : MemoryObjectStore Key KeyPath) : Prop where
  consistent : store.Consistent bindings
  records : store.recordAt = original.recordAt
  header : OpenStore.SameHeader store original
  within : IndexesWithin store original

/-- Restoring a deleted index of the original store registers it with its original contents. -/
theorem Restored.maybeRestoreDeletedIndex (h : Restored bindings original store)
    (horig : original.Consistent bindings) (hnames : DistinctNames original)
    (hinfo : original.plain.indexes ref = some index.info)
    (hrepop : Repopulates bindings index.info original.records)
    (order : IterationOrder (Key × ThreadSafeDataBuffer)) :
    Restored bindings original (store.maybeRestoreDeletedIndex bindings order ref index) ∧
      (store.maybeRestoreDeletedIndex bindings order ref index).plain.indexes =
        update store.plain.indexes ref (some index.info) := by
  obtain ⟨hfiles, hpopulated⟩ := files_repopulated horig h.records hinfo hrepop order
  unfold MemoryObjectStore.maybeRestoreDeletedIndex
  split_ifs with hname
  · refine ⟨h, ?_⟩
    rw [← (hasIndex_iff_of_within hnames h.within hinfo).mp hname, update_eq_self]
  · have hidxs :
        { store with
          indexes := store.indexes.insert ref (store.populateIndexWithExistingRecords bindings order
            index.clearIndexValueStore).1 }.plain.indexes =
        update store.plain.indexes ref (some index.info) := by
      funext other
      change ((store.indexes.insert ref _).lookup other).map MemoryIndex.info = _
      rw [lookup_insert_eq, update_apply]
      split_ifs with heq
      · exact congrArg some hpopulated
      · rfl
    refine ⟨⟨?_, h.records, ⟨h.header.identifier, h.header.name, h.header.keyGeneratorValue⟩, ?_⟩,
      hidxs⟩
    · exact horig.insertIndex h.consistent h.within (hinfo.trans (congrArg some hpopulated.symm))
        hfiles
    · rw [indexesWithin_iff, hidxs]
      intro other info hoth
      rw [update_apply] at hoth
      split_ifs at hoth with heq
      · rw [heq, hinfo, hoth]
      · exact indexesWithin_iff.mp h.within other info hoth

end MemoryObjectStore

end WebKit.IndexedDB
