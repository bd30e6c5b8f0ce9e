import WebKit.IndexedDB.MemoryObjectStore

/-!
What is left of a record that an index refuses. The object store takes it out of
its map and its ordered keys again, and out of the indexes that had taken it. In
an index, the whole entry of the index key goes then, with the primary keys of
other records, while the ordered keys keep the index key.

So a refused record leaves the object store as it was only when it was refused
before any index had taken it, or when the indexes that had taken it already held
its keys without an entry, as an earlier refusal leaves them.
-/

namespace WebKit.IndexedDB

open List HashMaps

variable {Key KeyPath Value : Type*}

theorem IndexValueEntry.removeKey_iff [DecidableEq Key] {unique : Bool}
    (entry : IndexValueEntry Key unique) (oldKey : Key) :
    (entry.removeKey oldKey).2 ↔ oldKey ∈ entry.keys := by
  cases entry with
  | key k => by_cases h : k = some oldKey <;> simp [removeKey, keys, h]
  | orderedKeys keys => exact decide_eq_true_iff

namespace IndexValueStore

variable [DecidableEq Key]

/-- Undoing a record takes out the entry it is found in, and keeps the ordered keys. -/
theorem removeRecord_of_mem {store : IndexValueStore Key} {indexKey valueKey : Key}
    (hmem : valueKey ∈ store.valueKeys indexKey) :
    (store.removeRecord indexKey valueKey).orderedKeys = store.orderedKeys ∧
      ∀ key, (store.removeRecord indexKey valueKey).entries key =
        if key = indexKey then none else store.entries key := by
  unfold removeRecord
  rw [valueKeys] at hmem
  cases hget : store.records.lookup indexKey with
  | none =>
    rw [hget] at hmem
    cases hmem
  | some entry =>
    rw [hget, Option.elim_some] at hmem
    dsimp only
    rw [if_pos ((entry.removeKey_iff valueKey).mpr hmem)]
    refine ⟨rfl, fun key => ?_⟩
    simp only [entries, lookup_erase_eq]
    split_ifs <;> rfl

theorem foldl_removeRecord {store : IndexValueStore Key} {keys : List Key} (hnodup : keys.Nodup)
    {valueKey : Key} (hmem : ∀ key ∈ keys, valueKey ∈ store.valueKeys key) :
    let result := keys.foldl (fun store key => store.removeRecord key valueKey) store
    result.orderedKeys = store.orderedKeys ∧
      ∀ key, result.entries key = if key ∈ keys then none else store.entries key := by
  induction keys generalizing store with
  | nil => exact ⟨rfl, fun key => by simp⟩
  | cons first rest ih =>
    obtain ⟨hfst, hrest⟩ := nodup_cons.mp hnodup
    obtain ⟨hord, hents⟩ := removeRecord_of_mem (hmem first mem_cons_self)
    obtain ⟨hord', hents'⟩ := @ih (store.removeRecord first valueKey) hrest <| by
      intro key hkey
      rw [valueKeys_eq, hents, if_neg (ne_of_mem_of_not_mem hkey hfst), ← valueKeys_eq]
      exact hmem key (mem_cons_of_mem _ hkey)
    refine ⟨hord'.trans hord, fun key => (hents' key).trans ?_⟩
    rw [hents]
    by_cases hsame : key = first <;> simp [hsame]

end IndexValueStore

namespace MemoryIndex

variable [LinearOrder Key] {bindings : Bindings Key KeyPath Value} {index : MemoryIndex Key KeyPath}

def stored (index : MemoryIndex Key KeyPath) :
    IDBIndexInfo KeyPath × (Key → Option (Finset Key)) × Finset Key :=
  (index.info, index.valueStore.entries, index.valueStore.orderedKeys)

def refuses (bindings : Bindings Key KeyPath Value) (index : MemoryIndex Key KeyPath)
    (value : ThreadSafeDataBuffer) : Bool :=
  index.info.unique && (indexKeys bindings index.info value).any index.valueStore.contains

/-- The keys of the value have no entry, but are among the ordered keys. -/
def Leftover (bindings : Bindings Key KeyPath Value) (index : MemoryIndex Key KeyPath)
    (value : ThreadSafeDataBuffer) : Prop :=
  ∀ indexKey ∈ indexKeys bindings index.info value,
    index.valueStore.contains indexKey = false ∧ indexKey ∈ index.valueStore.orderedKeys

theorem putValue_error_iff (hunique : index.valueStore.unique = index.info.unique) (key : Key)
    (value : ThreadSafeDataBuffer) :
    (index.putValue bindings key value).2 ≠ none ↔ index.refuses bindings value := by
  rw [refuses, Bool.and_eq_true, any_eq_true, indexKeys_eq, putValue]
  cases valueIndexKey bindings index.info value with
  | none => simp
  | some indexKey => exact putIndexKey_error_iff hunique bindings key indexKey

variable {key : Key} {value : ThreadSafeDataBuffer}

section

variable (hunique : index.valueStore.unique = index.info.unique)
  (hok : (index.putValue bindings key value).2 = none)

include hunique hok

/-- Taking a record back empties the entries of its keys. -/
theorem takenBack_spec : (index.takenBack bindings key value).valueStore.orderedKeys =
        index.valueStore.orderedKeys ∪ (indexKeys bindings index.info value).toFinset ∧
      ∀ indexKey, (index.takenBack bindings key value).valueStore.entries indexKey =
        if indexKey ∈ indexKeys bindings index.info value then none
        else index.valueStore.entries indexKey := by
  rw [indexKeys_eq]
  unfold takenBack
  unfold putValue at hok
  cases hkey : valueIndexKey bindings index.info value with
  | none => simp
  | some indexKey =>
    rw [hkey, Option.elim_some] at hok
    obtain ⟨heq, hfree⟩ := putIndexKey_of_ok hunique hok
    have hnodup := IndexKey.nodup_recordKeys bindings index.info indexKey
    obtain ⟨-, hord, hents⟩ := IndexValueStore.foldl_addRecord hnodup key hfree
    obtain ⟨hord', hents'⟩ := IndexValueStore.foldl_removeRecord hnodup <| by
      intro other hoth
      rw [IndexValueStore.valueKeys_eq, hents, if_pos hoth, Option.getD_some]
      exact Finset.mem_insert_self key _
    have hrem : ((index.putIndexKey bindings key indexKey).1.removeRecord bindings key
        indexKey).valueStore = (indexKey.recordKeys bindings index.info).foldl
          (fun store other => store.removeRecord other key)
          ((indexKey.recordKeys bindings index.info).foldl
            (fun store other => (store.addRecord other key).1) index.valueStore) := by
      rw [heq, removeRecord, IndexKey.recordKeys]
      split_ifs <;> rfl
    simp only [Option.elim_some, hrem]
    refine ⟨hord'.trans hord, fun other => (hents' other).trans ?_⟩
    by_cases hoth : other ∈ indexKey.recordKeys bindings index.info
    · simp [hoth]
    · simp [hoth, hents]

/-- An index is as before exactly when the keys of the value were left over in it. -/
theorem stored_takenBack_iff :
    (index.takenBack bindings key value).stored = index.stored ↔ index.Leftover bindings value := by
  obtain ⟨hord, hents⟩ := takenBack_spec hunique hok
  simp only [stored, Prod.mk.injEq, info_takenBack, true_and, funext_iff, hents, hord,
    Finset.union_eq_left, Leftover, IndexValueStore.contains_eq]
  constructor
  · rintro ⟨hnone, hsubset⟩ indexKey hkey
    have hent := hnone indexKey
    rw [if_pos hkey] at hent
    exact ⟨by rw [← hent]; rfl, hsubset (mem_toFinset.mpr hkey)⟩
  · intro h
    refine ⟨fun indexKey => ?_, fun indexKey hkey => (h indexKey (mem_toFinset.mp hkey)).2⟩
    split_ifs with hkey
    · exact (Option.not_isSome_iff_eq_none.mp (by rw [(h indexKey hkey).1]; decide)).symm
    · rfl

end

end MemoryIndex

def MemoryObjectStore.stored [LinearOrder Key] (store : MemoryObjectStore Key KeyPath) :
    (Key → Option ThreadSafeDataBuffer) × Finset Key ×
      (IndexRef → Option (IDBIndexInfo KeyPath × (Key → Option (Finset Key)) × Finset Key)) :=
  (store.recordAt, store.orderedKeys.getD ∅,
    fun ref => (store.indexes.lookup ref).map MemoryIndex.stored)

def MemoryObjectStore.UniqueAsMade [DecidableEq Key] (store : MemoryObjectStore Key KeyPath) : Prop :=
  ∀ ref index, store.indexes.lookup ref = some index →
    index.valueStore.unique = index.info.unique

namespace OpenStore

open MemoryObjectStore

variable [LinearOrder Key] {bindings : Bindings Key KeyPath Value}

section

variable (bindings : Bindings Key KeyPath Value) (iteration : IterationOrder IndexRef)

variable (s : OpenStore Key KeyPath)

def reached (value : ThreadSafeDataBuffer) : List IndexRef :=
  (iteration.order s.store.indexes.keys).takeWhile fun ref =>
    !(s.store.indexes.lookup ref).any fun index => index.refuses bindings value

/-- If an index refuses the value, the key has no record, and the keys of the value are left over
in the indexes before it. -/
def RefusedCleanly (key : Key) (value : ThreadSafeDataBuffer) : Prop :=
  (∃ ref index, s.store.indexes.lookup ref = some index ∧ index.refuses bindings value = true) →
    s.store.recordAt key = none ∧ key ∉ s.store.orderedKeys.getD ∅ ∧
      ∀ ref ∈ s.reached bindings iteration value, ∀ index, s.store.indexes.lookup ref = some index →
        index.Leftover bindings value

theorem snd_addRecord (iteration : IterationOrder IndexRef) (key : Key)
    (value : ThreadSafeDataBuffer) :
    (s.addRecord bindings iteration key value).2 =
      (updateIndexesForPutRecord bindings iteration s.store.indexes key value).2 := by
  rcases addRecord_cases bindings s iteration key value with ⟨hok, heq⟩ | ⟨error, herr, heq⟩
  · rw [heq, hok]
  · rw [heq, herr]

end

/-- A refused record leaves the map without a record of its key. -/
theorem stored_addRecord_of_error {s : OpenStore Key KeyPath} {iteration : IterationOrder IndexRef}
    {key : Key} {value : ThreadSafeDataBuffer}
    (herr : (s.addRecord bindings iteration key value).2 ≠ none) :
    (s.addRecord bindings iteration key value).1.store.stored =
      (Function.update s.store.recordAt key none, (s.store.orderedKeys.getD ∅).erase key, fun ref =>
        ((updateIndexesForPutRecord bindings iteration s.store.indexes key value).1.lookup ref).map
          MemoryIndex.stored) := by
  obtain ⟨-, heq⟩ | ⟨error, -, heq⟩ := addRecord_cases bindings s iteration key value
  · exact absurd (by rw [heq]) herr
  · rw [heq, MemoryObjectStore.stored]
    exact Prod.ext (heq ▸ recordAt_addRecord_of_error herr)
      (Prod.ext (Finset.erase_insert_eq_erase _ _) rfl)

/-- A record is refused exactly when an index refuses its value. -/
theorem addRecord_error_iff {s : OpenStore Key KeyPath} (hunique : s.store.UniqueAsMade)
    (iteration : IterationOrder IndexRef) (key : Key) (value : ThreadSafeDataBuffer) :
    (s.addRecord bindings iteration key value).2 ≠ none ↔
      ∃ ref index, s.store.indexes.lookup ref = some index ∧ index.refuses bindings value := by
  rw [snd_addRecord]
  constructor
  · intro herr
    obtain ⟨_, _, -, -, ⟨-, hok, -⟩ | ⟨ref, _, index, error, -, hidx, hput, -⟩⟩ :=
      updateIndexesForPutRecord_spec bindings key value s.store.indexes iteration
    · exact absurd hok herr
    · exact ⟨ref, index, hidx, (MemoryIndex.putValue_error_iff (hunique ref index hidx) key
        value).mp (hput ▸ Option.some_ne_none error)⟩
  · rintro ⟨ref, index, hidx, hrefs⟩ hok
    exact (MemoryIndex.putValue_error_iff (hunique ref index hidx) key value).mpr hrefs
      ((updateIndexesForPutRecord_of_ok bindings hok).1 ref index hidx)

section Refused

variable {s : OpenStore Key KeyPath} {key : Key} {value : ThreadSafeDataBuffer}
  {taken : List IndexRef}
  (hunique : s.store.UniqueAsMade)
  (htaken : ∀ ref ∈ taken, ∀ index, s.store.indexes.lookup ref = some index →
    (index.putValue bindings key value).2 = none)

include hunique htaken in
theorem reached_eq {iteration : IterationOrder IndexRef} {ref : IndexRef} {after : List IndexRef}
    {index : MemoryIndex Key KeyPath}
    (hord : iteration.order s.store.indexes.keys = taken ++ ref :: after)
    (hidx : s.store.indexes.lookup ref = some index) (hrefs : index.refuses bindings value) :
    s.reached bindings iteration value = taken := by
  rw [reached, hord, takeWhile_append_of_pos, takeWhile_cons_of_neg, append_nil]
  · simp [hidx, hrefs]
  · intro other hoth
    cases hoth' : s.store.indexes.lookup other with
    | none => rfl
    | some index' =>
      have hok := htaken other hoth index' hoth'
      by_contra hrefs'
      apply (MemoryIndex.putValue_error_iff (hunique other index' hoth') key value).mpr _ hok
      simpa using hrefs'

include hunique htaken in
/-- An index that had not taken the record is as before, another one only by what was left over. -/
theorem stored_index_iff {ref : IndexRef} {index : MemoryIndex Key KeyPath}
    (hidx : s.store.indexes.lookup ref = some index)
    (herr : (index.putValue bindings key value).2 ≠ none) (other : IndexRef) :
    ((s.store.indexes.lookup other).map fun index => MemoryIndex.stored <|
        if other ∈ taken then index.takenBack bindings key value
        else if other = ref then (index.putValue bindings key value).1 else index) =
        (s.store.indexes.lookup other).map MemoryIndex.stored ↔
      (other ∈ taken → ∀ index', s.store.indexes.lookup other = some index' →
        index'.Leftover bindings value) := by
  cases hoth : s.store.indexes.lookup other with
  | none => simp
  | some index' =>
    simp only [Option.map_some, Option.some.injEq, forall_eq']
    split_ifs with hmem hsame
    · rw [MemoryIndex.stored_takenBack_iff (hunique other index' hoth)
        (htaken other hmem index' hoth)]
      exact ⟨fun h _ => h, fun h => h hmem⟩
    · rw [hsame, hidx] at hoth
      cases hoth
      rw [MemoryIndex.putValue_of_error herr]
      exact iff_of_true rfl fun h => absurd h hmem
    · exact iff_of_true rfl fun h => absurd h hmem

end Refused

/-- A record that is refused leaves the object store as it was exactly when it is refused cleanly. -/
theorem refused_record_changes_nothing_iff {s : OpenStore Key KeyPath}
    (hunique : s.store.UniqueAsMade) (iteration : IterationOrder IndexRef) (key : Key)
    (value : ThreadSafeDataBuffer) :
    ((s.addRecord bindings iteration key value).2 ≠ none →
        (s.addRecord bindings iteration key value).1.store.stored = s.store.stored) ↔
      s.RefusedCleanly bindings iteration key value := by
  by_cases hfails : (s.addRecord bindings iteration key value).2 = none
  · refine iff_of_true (absurd hfails) fun hrefs => ?_
    exact absurd hfails ((addRecord_error_iff hunique iteration key value).mpr hrefs)
  · obtain ⟨taken, rest, hord, htaken, ⟨-, hok, -⟩ |
        ⟨ref, after, index, error, rfl, hidx, herr, -, -, hget⟩⟩ :=
      updateIndexesForPutRecord_spec bindings key value s.store.indexes iteration
    · exact absurd ((snd_addRecord ..).trans hok) hfails
    have herr' := herr ▸ Option.some_ne_none error
    have hrefs :=
      (MemoryIndex.putValue_error_iff (hunique ref index hidx) key value).mp herr'
    rw [forall_prop_of_true hfails, stored_addRecord_of_error hfails, MemoryObjectStore.stored,
      Prod.mk.injEq, Prod.mk.injEq, Function.update_eq_self_iff, Finset.erase_eq_self, RefusedCleanly,
      forall_prop_of_true ⟨ref, index, hidx, hrefs⟩,
      reached_eq hunique htaken hord hidx hrefs]
    refine and_congr eq_comm (and_congr Iff.rfl (funext_iff.trans (forall_congr' fun other => ?_)))
    rw [hget, Option.map_map]
    exact stored_index_iff hunique htaken hidx herr' other

def sharedKeyBindings : Bindings ℕ Unit Unit where
  isValid _ := true
  setArrayValue _ := 0
  deserialize _ := .value ()
  createKeyPathArray _ _ := [7]

def twoIndexes : OpenStore ℕ Unit :=
  (addRecord sharedKeyBindings .insertion
    { store := ⟨1, "store", 1, none, none, ((∅ : HashMap IndexRef (MemoryIndex ℕ Unit)).insert 1
        (.create ⟨1, 1, "shared", (), false, false⟩)).insert 2
        (.create ⟨2, 1, "unique", (), true, false⟩)⟩
      transaction := .start true 1 } 1 (some [1])).1

theorem uniqueAsMade_twoIndexes : twoIndexes.store.UniqueAsMade := by
  intro ref index hidx
  have hall : (pairs twoIndexes.store.indexes).all (fun entry =>
      entry.2.valueStore.unique == entry.2.info.unique) = true := by decide
  exact beq_iff_eq.mp (all_eq_true.mp hall (ref, index) (mem_pairs.mpr hidx))

theorem refused_record_changes_nothing_uniqueFirst :
    (twoIndexes.addRecord sharedKeyBindings ⟨reverse, reverse_perm⟩ 2
      (some [2])).1.store.stored = twoIndexes.store.stored := by
  refine (refused_record_changes_nothing_iff uniqueAsMade_twoIndexes _ 2 (some [2])).mpr ?_ (by decide)
  have hreached : twoIndexes.reached sharedKeyBindings ⟨reverse, reverse_perm⟩ (some [2]) =
      [] := by decide
  refine fun _ => ⟨by decide, by decide, fun ref href => ?_⟩
  rw [hreached] at href
  cases href

/-- The record is no longer found through its shared index key once a second one with that key has
been refused. -/
theorem refused_record_loses_other_record :
    ¬ ((twoIndexes.addRecord sharedKeyBindings .insertion 2 (some [2])).2 ≠ none →
      (twoIndexes.addRecord sharedKeyBindings .insertion 2 (some [2])).1.store.stored =
        twoIndexes.store.stored) := by
  intro h
  have hidx := congrArg (fun stored => (stored.2.2 1).map fun index => index.2.1 7) (h (by decide))
  revert hidx
  decide

end OpenStore

end WebKit.IndexedDB
