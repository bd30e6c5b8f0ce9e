import Mathlib

/-!
Hash maps as association lists without repeated keys. A hash table hands out its
elements in an order of its own, which an iteration order stands for.
-/

namespace WebKit.HashMaps

open List

/-- The order in which a hash table hands out its elements: each of them once. -/
structure IterationOrder (α : Type*) where
  order : List α → List α
  perm : ∀ elements, (order elements).Perm elements

namespace IterationOrder

variable {α : Type*}

def insertion : IterationOrder α := ⟨id, fun _ => List.Perm.refl _⟩

@[simp]
theorem mem_order (iteration : IterationOrder α) {elements : List α} {a : α} :
    a ∈ iteration.order elements ↔ a ∈ elements :=
  (iteration.perm elements).mem_iff

theorem nodup_order (iteration : IterationOrder α) {elements : List α} (h : elements.Nodup) :
    (iteration.order elements).Nodup :=
  (iteration.perm elements).nodup_iff.mpr h

end IterationOrder

abbrev HashMap (κ : Type*) (υ : Type*) := AList fun _ : κ => υ

variable {κ υ ω : Type*}

def pairs (map : HashMap κ υ) : List (κ × υ) := map.entries.map fun entry => (entry.1, entry.2)

variable (map : HashMap κ υ)

theorem pairs_fst : (pairs map).map Prod.fst = map.keys := by
  simp [pairs, AList.keys, keys]

theorem nodup_pairs : (pairs map).Nodup := by
  have hkeys := map.keys_nodup
  rw [← pairs_fst] at hkeys
  exact hkeys.of_map _

theorem nodup_order_fst (iteration : IterationOrder (κ × υ)) (map : HashMap κ υ) :
    ((iteration.order (pairs map)).map Prod.fst).Nodup := by
  rw [((iteration.perm (pairs map)).map Prod.fst).nodup_iff, pairs_fst]
  exact map.keys_nodup

def mapValues (f : κ → υ → ω) (map : HashMap κ υ) : HashMap κ ω where
  entries := map.entries.map fun entry => ⟨entry.1, f entry.1 entry.2⟩
  nodupKeys := by
    have hkeys := map.keys_nodup
    simpa [AList.keys, keys, List.NodupKeys, Function.comp_def] using hkeys

def retain (p : υ → Bool) (map : HashMap κ υ) : HashMap κ υ where
  entries := map.entries.filter fun entry => p entry.2
  nodupKeys := map.nodupKeys.sublist filter_sublist

variable [DecidableEq κ] {map : HashMap κ υ} {key : κ}

theorem mem_pairs {value : υ} : (key, value) ∈ pairs map ↔ map.lookup key = some value := by
  rw [← Option.mem_def, AList.mem_lookup_iff, pairs, mem_map]
  constructor
  · rintro ⟨⟨key', value'⟩, hmem, heq⟩
    cases heq
    exact hmem
  · intro hmem
    exact ⟨_, hmem, rfl⟩

theorem mem_keys_iff : key ∈ map.keys ↔ ∃ value, map.lookup key = some value := by
  rw [← AList.mem_keys, ← AList.lookup_isSome, Option.isSome_iff_exists]

@[simp]
theorem lookup_mapValues (f : κ → υ → ω) (map : HashMap κ υ) (key : κ) :
    (mapValues f map).lookup key = (map.lookup key).map (f key) := by
  apply Option.ext
  intro value
  rw [← Option.mem_def, AList.mem_lookup_iff, Option.map_eq_some_iff]
  simp only [mapValues, mem_map]
  constructor
  · rintro ⟨⟨key', value'⟩, hmem, heq⟩
    cases heq
    exact ⟨value', AList.mem_lookup_iff.mpr hmem, rfl⟩
  · rintro ⟨value', hget, rfl⟩
    exact ⟨_, AList.mem_lookup_iff.mp hget, rfl⟩

@[simp]
theorem lookup_retain (p : υ → Bool) (map : HashMap κ υ) (key : κ) :
    (retain p map).lookup key = (map.lookup key).filter p := by
  apply Option.ext
  intro value
  rw [← Option.mem_def, AList.mem_lookup_iff, Option.filter_eq_some_iff]
  simp only [retain, mem_filter]
  rw [← AList.mem_lookup_iff, Option.mem_def]

/-- Steps that leave a key alone leave it alone together. -/
theorem lookup_foldl_eq {α : Type*} {f : HashMap κ υ → α → HashMap κ υ} {steps : List α}
    (h : ∀ a ∈ steps, ∀ map, (f map a).lookup key = map.lookup key) (map : HashMap κ υ) :
    (steps.foldl f map).lookup key = map.lookup key := by
  induction steps generalizing map with
  | nil => rfl
  | cons first rest ih =>
    obtain ⟨hfst, hrest⟩ := forall_mem_cons.mp h
    rw [foldl_cons, ih hrest, hfst]

theorem lookup_insert_eq (key key' : κ) (value : υ) :
    (map.insert key value).lookup key' = if key' = key then some value else map.lookup key' := by
  split_ifs with h
  · rw [h, AList.lookup_insert]
  · exact AList.lookup_insert_ne h

structure Extends (new : κ → υ → Prop) (map map' : HashMap κ υ) : Prop where
  kept : ∀ {key value}, map.lookup key = some value → map'.lookup key = some value
  new : ∀ {key value}, map'.lookup key = some value → map.lookup key = some value ∨ new key value

namespace Extends

variable {new : κ → υ → Prop}

theorem refl (map : HashMap κ υ) : Extends new map map := ⟨id, .inl⟩

theorem trans {map' map'' : HashMap κ υ} (h : Extends new map map') (h' : Extends new map' map'') :
    Extends new map map'' :=
  ⟨fun hget => h'.kept (h.kept hget), fun hget => (h'.new hget).elim h.new .inr⟩

theorem insert {value : υ} (h : map.lookup key = none) (hnew : new key value) :
    Extends new map (map.insert key value) where
  kept {key' value'} hget := by
    rw [lookup_insert_eq, if_neg, hget]
    rintro rfl
    exact absurd (h.symm.trans hget) nofun
  new {key' value'} hget := by
    rw [lookup_insert_eq] at hget
    split_ifs at hget with hsame
    · cases hget
      exact .inr (hsame ▸ hnew)
    · exact .inl hget

end Extends

/-- Steps for the entries of a map, of which only the one for a key matters to what is observed. -/
theorem foldl_pairs_eq {σ γ : Type*} (iteration : IterationOrder (κ × υ)) (source : HashMap κ υ)
    {observe : σ → Option γ} {step : σ → κ × υ → σ} {taken : υ → Option γ}
    (hsame : ∀ state value, source.lookup key = some value →
      observe (step state (key, value)) = (taken value).or (observe state))
    (hother : ∀ state key' value, key' ≠ key → source.lookup key' = some value →
      observe (step state (key', value)) = observe state) (state : σ) :
    observe ((iteration.order (pairs source)).foldl step state) =
      ((source.lookup key).bind taken).or (observe state) := by
  have hfold : ∀ entries : List (κ × υ), (∀ entry ∈ entries, source.lookup entry.1 = some entry.2) →
      ∀ state, observe (entries.foldl step state) = if key ∈ entries.map Prod.fst then
        ((source.lookup key).bind taken).or (observe state) else observe state := by
    intro entries hents
    induction entries with
    | nil => simp
    | cons entry entries ih =>
      obtain ⟨hent, hrest⟩ := forall_mem_cons.mp hents
      obtain ⟨key', value⟩ := entry
      intro state
      rw [foldl_cons, ih hrest]
      by_cases hkey : key' = key
      · subst hkey
        rw [hsame _ _ hent, hent]
        cases htaken : taken value <;> simp [htaken]
      · rw [hother _ _ _ hkey hent]
        simp only [map_cons, mem_cons, Ne.symm hkey, false_or]
  rw [hfold _ fun entry hent => mem_pairs.mp (iteration.mem_order.mp hent)]
  have hmem : key ∈ (iteration.order (pairs source)).map Prod.fst ↔
      ∃ value, source.lookup key = some value := by
    rw [((iteration.perm _).map Prod.fst).mem_iff, pairs_fst, mem_keys_iff]
  cases hget : source.lookup key <;> simp [hmem, hget]

theorem lookup_erase_eq (key key' : κ) :
    (map.erase key).lookup key' = if key' = key then none else map.lookup key' := by
  split_ifs with h
  · rw [h, AList.lookup_erase]
  · exact AList.lookup_erase_ne h

theorem erase_eq_self (h : map.lookup key = none) : map.erase key = map :=
  AList.ext (kerase_of_notMem_keys fun hmem => AList.lookup_eq_none.mp h (AList.mem_keys.mpr hmem))

/-- The entry for a key, and the entries for the other keys. -/
theorem pairs_perm {value : υ} (h : map.lookup key = some value) :
    (pairs map).Perm ((key, value) :: pairs (map.erase key)) := by
  have hmem : key ∈ map.entries.keys := mem_keys_iff.mpr ⟨value, h⟩
  obtain ⟨value', before, after, -, hents, herase⟩ := exists_of_kerase hmem
  have hval : value' = value := by
    have hin : (⟨key, value'⟩ : Σ _ : κ, υ) ∈ map.entries := by
      rw [hents]
      exact mem_append_right _ mem_cons_self
    exact Option.some.inj ((Option.mem_def.mp (AList.mem_lookup_iff.mpr hin)).symm.trans h)
  have hrest : pairs (map.erase key) =
      before.map (fun entry => (entry.1, entry.2)) ++ after.map fun entry => (entry.1, entry.2) := by
    rw [← map_append, ← herase]
    rfl
  rw [hrest, pairs, hents, hval, map_append, map_cons]
  exact perm_middle

def add (map : HashMap κ υ) (key : κ) (value : υ) : HashMap κ υ :=
  if key ∈ map then map else map.insert key value

theorem lookup_add_eq (h : map.lookup key = none) (key' : κ) (value : υ) :
    (add map key value).lookup key' = if key' = key then some value else map.lookup key' := by
  rw [add, if_neg (AList.lookup_eq_none.mp h), lookup_insert_eq]

def tabulate (f : κ → υ) (keys : List κ) : HashMap κ υ :=
  keys.foldl (fun map key => map.insert key (f key)) ∅

theorem lookup_tabulate (f : κ → υ) (keys : List κ) (key : κ) :
    (tabulate f keys).lookup key = if key ∈ keys then some (f key) else none := by
  have hfold : ∀ map : HashMap κ υ, (keys.foldl (fun map key => map.insert key (f key)) map).lookup key =
      if key ∈ keys then some (f key) else map.lookup key := by
    induction keys with
    | nil => exact fun map => by simp
    | cons first rest ih =>
      intro map
      rw [foldl_cons, ih, lookup_insert_eq]
      by_cases hfst : key = first <;> simp [hfst]
  exact (hfold ∅).trans (by rw [AList.lookup_empty])

theorem toFinset_keys_insert (key : κ) (value : υ) :
    (map.insert key value).keys.toFinset = insert key map.keys.toFinset := by
  ext other
  simp only [mem_toFinset, Finset.mem_insert, ← AList.mem_keys, AList.mem_insert]

theorem toFinset_keys_erase (key : κ) :
    (map.erase key).keys.toFinset = map.keys.toFinset.erase key := by
  ext other
  simp only [mem_toFinset, Finset.mem_erase, ← AList.mem_keys, AList.mem_erase]

/-- A left-biased union holds what the left map holds, and elsewhere what the right one holds. -/
theorem lookup_union_eq (left right : HashMap κ υ) (key : κ) :
    (left ∪ right).lookup key = (left.lookup key).or (right.lookup key) := by
  by_cases h : key ∈ left
  · rw [AList.lookup_union_left h]
    obtain ⟨value, hval⟩ := Option.isSome_iff_exists.mp (AList.lookup_isSome.mpr h)
    rw [hval, Option.some_or]
  · rw [AList.lookup_union_right h, AList.lookup_eq_none.mpr h, Option.none_or]

end WebKit.HashMaps
