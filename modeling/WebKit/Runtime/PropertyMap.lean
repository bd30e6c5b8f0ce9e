import WebKit.Runtime.PropertyTable

/-!
What a property table is for: a finite map that keeps the order in which its keys were added. Every
run of operations follows the map. When the entries take their offsets from the table and give them
back on removal, the offsets in use are the first ones that there are, as long as no offset is taken
for a key that is already there.
-/

namespace WebKit.Runtime

open List PropertyTable

variable {K : Type} [DecidableEq K] (hash : K → ℕ) {effect : EffectOnPropertyOffset}
variable {attributes : UInt8} {offset : ℤ} {inferred : Bool}

namespace PropertyTable

/-- The table is a map with these entries in order: they are what the iteration gives, their keys are
distinct, and every search ends, with the entry of the key if there is one. -/
structure OrderedMap (t : PropertyTable K) (entries : List (PropertyMapEntry K)) : Prop where
  inOrder_eq : t.inOrder = .ok entries
  nodup : (entries.map (·.key)).Nodup
  find_spec : ∀ key, ∃ place slot, t.find hash key = .ok (place, slot) ∧
    place.bind (t.table[·]?) = entries.find? (·.key = .live key)
  get_spec : ∀ key, ∃ place, t.get hash key = .ok place ∧
    place.bind (t.table[·]?) = entries.find? (·.key = .live key)
  size_eq : t.size = entries.length

variable {hash} {t : PropertyTable K} {entries : List (PropertyMapEntry K)} {key : K}

namespace Settled

variable {used : List (PropertyMapEntry K)} {entry : PropertyMapEntry K}

/-- The entry of a key is in the map when it is among the used ones. -/
theorem find?_eq (h : t.Valid hash used) {place : ℕ} (hent : used[place]? = some entry)
    (hkey : entry.key = .live key) :
    (used.filter (!·.isDeleted)).find? (·.key = .live key) = some entry := by
  have hmem : entry ∈ used.filter (!·.isDeleted) := by
    refine mem_filter.mpr ⟨mem_of_getElem? hent, ?_⟩
    rw [PropertyMapEntry.isDeleted_of_live hkey]
    rfl
  have hsome : ((used.filter (!·.isDeleted)).find? (·.key = .live key)).isSome := by
    rw [find?_isSome]
    exact ⟨entry, hmem, decide_eq_true hkey⟩
  obtain ⟨found, hfound⟩ := Option.isSome_iff_exists.mp hsome
  have hfoundKey := find?_some hfound
  rw [decide_eq_true_iff] at hfoundKey
  obtain ⟨other, hoth⟩ := mem_iff_getElem?.mp
    (mem_filter.mp (mem_of_find?_eq_some hfound)).1
  obtain rfl := h.place_eq hent hoth hkey hfoundKey
  rw [hfound, ← hoth, hent]

theorem find?_eq_none (habs : ∀ entry ∈ used, entry.key ≠ .live key) :
    (used.filter (!·.isDeleted)).find? (·.key = .live key) = none := by
  rw [List.find?_eq_none]
  intro entry hent
  rw [decide_eq_true_iff]
  exact habs entry (mem_filter.mp hent).1

/-- A search in a valid table ends with the entry of the key. -/
theorem find_spec (h : t.Valid hash used) (key : K) :
    ∃ place slot, t.find hash key = .ok (place, slot) ∧
      place.bind (t.table[·]?) = (used.filter (!·.isDeleted)).find? (·.key = .live key) := by
  by_cases hpres : ∃ entry ∈ used, entry.key = .live key
  · obtain ⟨entry, hmem, hkey⟩ := hpres
    obtain ⟨place, hent⟩ := mem_iff_getElem?.mp hmem
    obtain ⟨slot, hfind, -⟩ := h.find_live hent hkey
    refine ⟨some place, slot, hfind, ?_⟩
    have hplace : place < used.length := (List.getElem?_eq_some_iff.mp hent).1
    rw [find?_eq h hent hkey, Option.bind_some, h.table_eq, getElem?_append_left hplace, hent]
  · push Not at hpres
    obtain ⟨steps, hfind, -⟩ := h.find_absent hpres
    exact ⟨none, _, hfind, (find?_eq_none hpres).symm⟩

section

variable (h : t.Settled hash entries)

include h

theorem orderedMap : t.OrderedMap hash entries := by
  obtain ⟨used, hvalid, -, rfl⟩ := h
  constructor
  · exact hvalid.inOrder_eq
  · rw [List.Nodup, pairwise_map]
    refine (hvalid.distinct.filter (!·.isDeleted)).imp_of_mem ?_
    intro entry other hent _ hdist hsame
    obtain ⟨key, hkey⟩ := hvalid.exists_live hent
    have hdel := hdist hsame
    rw [hkey] at hdel
    cases hdel
  · exact find_spec hvalid
  · intro key
    obtain ⟨place, slot, hfind, hplace⟩ := find_spec hvalid key
    rw [PropertyTable.get]
    by_cases hzero : t.keyCount = 0
    · rw [if_pos hzero]
      have hnil : used.filter (!·.isDeleted) = [] := by
        rw [← length_eq_zero_iff, ← hvalid.keyCount_eq, hzero]
      rw [hnil]
      exact ⟨none, rfl, rfl⟩
    · rw [if_neg hzero]
      refine ⟨place, ?_, hplace⟩
      change (t.find hash key).map Prod.fst = _
      rw [hfind]
      rfl
  · exact hvalid.keyCount_eq

omit h in
omit [DecidableEq K] in
theorem create {capacity : ℕ} (hcap : capacity < 2 ^ 30) :
    (PropertyTable.create (sizeForCapacity capacity) none : PropertyTable K).Settled hash [] := by
  obtain ⟨k, hk, hk', hsize, -⟩ := sizeForCapacity_spec hcap
  rw [hsize]
  exact ⟨[], Valid.of_create hk hk' none, Nat.zero_mul 4 ▸ Nat.two_pow_pos k, rfl⟩

omit [DecidableEq K] in
/-- The deleted offsets play no part in it. -/
theorem of_deletedOffsets (offsets : Option (List ℤ)) :
    ({ t with deletedOffsets := offsets } : PropertyTable K).Settled hash entries := by
  obtain ⟨used, hvalid, hsettle, rfl⟩ := h
  refine ⟨used, { hvalid with reached := fun place entry key hent hkey => ?_ }, hsettle, rfl⟩
  exact (hvalid.reached place entry key hent hkey).imp fun _ hpath => { hpath with }

/-- Removing a key filters it out. -/
theorem remove (key : K) :
    ∃ t', t.remove hash key = .ok t' ∧ t'.Settled hash (entries.filter (·.key ≠ .live key)) ∧
      t'.deletedOffsets = t.deletedOffsets := by
  obtain ⟨used, hvalid, hsettle, rfl⟩ := h
  by_cases hpres : ∃ entry ∈ used, entry.key = .live key
  · obtain ⟨entry, hmem, hkey⟩ := hpres
    exact hvalid.remove_present hmem hkey hsettle
  · push Not at hpres
    obtain ⟨steps, hfind, -⟩ := hvalid.find_absent hpres
    refine ⟨t, by rw [remove, hfind]; rfl, ⟨used, hvalid, hsettle, ?_⟩, rfl⟩
    rw [filter_eq_self]
    intro entry hmem
    exact decide_eq_true (hpres entry (mem_filter.mp hmem).1)

theorem copy {newCapacity : ℕ} (hcap : newCapacity < 2 ^ 30)
    (hroom : t.keyCount ≤ sizeForCapacity newCapacity >>> 1) :
    ∃ t', t.copy hash newCapacity = .ok t' ∧ t'.Settled hash entries ∧
      t'.deletedOffsets = t.deletedOffsets := by
  obtain ⟨used, hvalid, hsettle, rfl⟩ := h
  unfold PropertyTable.copy
  rw [hvalid.inOrder_eq]
  by_cases hsame : sizeForCapacity newCapacity = t.indexSize
  · rw [if_pos hsame]
    exact ⟨t, rfl, ⟨used, hvalid, hsettle, rfl⟩, rfl⟩
  · rw [if_neg hsame]
    obtain ⟨t', hfold, hvalid', -, hdel, hoffs⟩ := hvalid.reinsertAll hcap hroom
    exact ⟨t', hfold, ⟨_, hvalid', hdel, by simp⟩, hoffs⟩

end

end Settled

end PropertyTable

inductive Operation (K : Type) where
  | add (key : K) (entryOffset : ℤ) (attributes : UInt8) (hasInferredType : Bool) (offset : ℤ)
    (offsetEffect : EffectOnPropertyOffset)
  | remove (key : K)
  | copy (newCapacity : ℕ)
  | nextOffset (inlineCapacity : ℤ)
  | addDeletedOffset (offset : ℤ)

namespace PropertyTable

section Operations

variable (t : PropertyTable K)

def perform : Operation K → Except Failure (PropertyTable K)
  | .add key entryOffset attributes hasInferredType offset offsetEffect =>
    (t.add hash ⟨.live key, entryOffset, attributes, hasInferredType⟩ offset offsetEffect).map Prod.fst
  | .remove key => t.remove hash key
  | .copy newCapacity => t.copy hash newCapacity
  | .nextOffset inlineCapacity => .ok (t.nextOffset inlineCapacity).2
  | .addDeletedOffset offset => .ok (t.addDeletedOffset offset)

def step (operation : Operation K) : Option (PropertyTable K) :=
  (t.perform hash operation).toOption

variable (entries : List (PropertyMapEntry K))

def applyTo : Operation K → List (PropertyMapEntry K)
  | .add key entryOffset attributes hasInferredType _ _ =>
    if ∃ entry ∈ entries, entry.key = .live key then entries
    else entries ++ [⟨.live key, entryOffset, attributes, hasInferredType⟩]
  | .remove key => entries.filter (·.key ≠ .live key)
  | _ => entries

/-- The calls of add that a release assertion stops: the offset of an entry that is there, or that must
not change the largest offset, lies above the largest offset. -/
def Stopped : Operation K → Prop
  | .add key entryOffset _ _ offset offsetEffect =>
    (∃ entry ∈ entries, entry.key = .live key ∧ offset < entry.offset) ∨
      (∀ entry ∈ entries, entry.key ≠ .live key) ∧
        offsetEffect = .propertyOffsetMustNotChange ∧ offset < entryOffset
  | _ => False

def Follows (operation : Operation K) : Prop :=
  ∀ entries, t.OrderedMap hash entries →
    match t.perform hash operation with
    | .ok t' => t'.OrderedMap hash (applyTo entries operation)
    | .error failure => failure = .releaseAssert ∧ Stopped entries operation

/-- The sizes do not overflow: a full table grows for less than `2 ^ 30` keys, and a copy is made for
less than that and has room for the keys. -/
def Fits : Operation K → Prop
  | .add .. => t.canInsert = false → t.keyCount + 1 < 2 ^ 30
  | .copy newCapacity => newCapacity < 2 ^ 30 ∧ t.keyCount ≤ sizeForCapacity newCapacity >>> 1
  | _ => True

instance decidableFits (t : PropertyTable K) : (operation : Operation K) → Decidable (t.Fits operation)
  | .add .. => inferInstanceAs (Decidable (_ → _))
  | .copy _ => inferInstanceAs (Decidable (_ ∧ _))
  | .remove _ => .isTrue trivial
  | .nextOffset _ => .isTrue trivial
  | .addDeletedOffset _ => .isTrue trivial

variable {hash} {t : PropertyTable K} {entries : List (PropertyMapEntry K)}

omit [DecidableEq K] in
theorem exists_nextOffset (t : PropertyTable K) (inlineCapacity : ℤ) :
    ∃ offsets, (t.nextOffset inlineCapacity).2 = { t with deletedOffsets := offsets } := by
  unfold nextOffset
  split
  · split
    · exact ⟨_, rfl⟩
    · exact ⟨_, rfl⟩
  · exact ⟨_, rfl⟩

/-- A new entry is added, unless the assertion stops it. -/
theorem Settled.perform_add_absent (h : t.Settled hash entries) {key : K} {entryOffset : ℤ}
    (habs : ∀ entry ∈ entries, entry.key ≠ .live key)
    (hguard : t.canInsert = false → t.keyCount + 1 < 2 ^ 30) :
    (∃ t', t.perform hash (.add key entryOffset attributes inferred offset effect) = .ok t' ∧
      t'.Settled hash (entries ++ [⟨.live key, entryOffset, attributes, inferred⟩]) ∧
      t'.deletedOffsets = t.deletedOffsets) ∨
    t.perform hash (.add key entryOffset attributes inferred offset effect) =
      .error .releaseAssert ∧
      effect = .propertyOffsetMustNotChange ∧ offset < entryOffset := by
  obtain ⟨used, hvalid, hsettle, rfl⟩ := h
  have habsent : ∀ other ∈ used, other.key ≠ .live key := by
    intro other hmem hsame
    refine habs other (mem_filter.mpr ⟨hmem, ?_⟩) hsame
    rw [PropertyMapEntry.isDeleted_of_live hsame]
    rfl
  have hent : (⟨.live key, entryOffset, attributes, inferred⟩ : PropertyMapEntry K).key =
    .live key := rfl
  obtain ⟨t', hadd, hsettle, hoffs⟩ :=
    hvalid.add_absent hent habsent hguard hsettle offset effect
  rw [perform, hadd]
  cases effect with
  | propertyOffsetMayChange => exact .inl ⟨t', rfl, hsettle, hoffs⟩
  | propertyOffsetMustNotChange =>
    by_cases hle : entryOffset ≤ offset
    · simp only [if_pos hle]
      exact .inl ⟨t', rfl, hsettle, hoffs⟩
    · simp only [if_neg hle]
      exact .inr ⟨rfl, trivial, Int.not_le.mp hle⟩

/-- An entry whose key is there is not added, unless the assertion stops it. -/
theorem Settled.perform_add_present (h : t.Settled hash entries) {key : K} {entryOffset : ℤ}
    {existing : PropertyMapEntry K} (hexist : existing ∈ entries)
    (hkey : existing.key = .live key) :
    t.perform hash (.add key entryOffset attributes inferred offset effect) = .ok t ∨
    t.perform hash (.add key entryOffset attributes inferred offset effect) =
      .error .releaseAssert ∧ offset < existing.offset := by
  obtain ⟨used, hvalid, -, rfl⟩ := h
  obtain ⟨place, hplace⟩ := mem_iff_getElem?.mp (mem_filter.mp hexist).1
  have hent : (⟨.live key, entryOffset, attributes, inferred⟩ : PropertyMapEntry K).key =
    .live key := rfl
  rw [perform, hvalid.add_present hent hplace hkey]
  by_cases hle : existing.offset ≤ offset
  · rw [if_pos hle]
    exact .inl rfl
  · rw [if_neg hle]
    exact .inr ⟨rfl, Int.not_le.mp hle⟩

variable {operation : Operation K}

/-- Every operation whose sizes do not overflow does what it does to the map. -/
theorem Settled.perform (h : t.Settled hash entries) (hfits : t.Fits operation) :
    (∃ t', t.perform hash operation = .ok t' ∧ t'.Settled hash (applyTo entries operation)) ∨
      t.perform hash operation = .error .releaseAssert ∧ Stopped entries operation := by
  cases operation with
  | add key entryOffset attributes inferred offset effect =>
    by_cases hpres : ∃ entry ∈ entries, entry.key = .live key
    · rw [applyTo, if_pos hpres]
      obtain ⟨existing, hexist, hkey⟩ := hpres
      rcases h.perform_add_present hexist hkey with hok | ⟨herr, hlt⟩
      · exact .inl ⟨t, hok, h⟩
      · exact .inr ⟨herr, .inl ⟨existing, hexist, hkey, hlt⟩⟩
    · rw [applyTo, if_neg hpres]
      push Not at hpres
      rcases h.perform_add_absent hpres hfits with ⟨t', hok, hsettle, -⟩ | ⟨herr, hstopped⟩
      · exact .inl ⟨t', hok, hsettle⟩
      · exact .inr ⟨herr, .inr ⟨hpres, hstopped⟩⟩
  | remove key =>
    obtain ⟨t', hok, hsettle, -⟩ := h.remove key
    exact .inl ⟨t', hok, hsettle⟩
  | copy newCapacity =>
    obtain ⟨t', hok, hsettle, -⟩ := h.copy hfits.1 hfits.2
    exact .inl ⟨t', hok, hsettle⟩
  | nextOffset inlineCapacity =>
    obtain ⟨offsets, hnext⟩ := exists_nextOffset t inlineCapacity
    refine .inl ⟨_, rfl, ?_⟩
    rw [hnext]
    exact h.of_deletedOffsets offsets
  | addDeletedOffset offset => exact .inl ⟨_, rfl, h.of_deletedOffsets _⟩

theorem Settled.follows (h : t.Settled hash entries) (hfits : t.Fits operation) :
    t.Follows hash operation := by
  intro entries' hmap
  obtain rfl := Except.ok.inj (hmap.inOrder_eq.symm.trans h.orderedMap.inOrder_eq)
  rcases h.perform hfits with ⟨t', hok, hsettle⟩ | ⟨herr, hstopped⟩
  · rw [hok]
    exact hsettle.orderedMap
  · rw [herr]
    exact ⟨rfl, hstopped⟩

theorem Settled.step (h : t.Settled hash entries) {t' : PropertyTable K} (hfits : t.Fits operation)
    (hstep : t.step hash operation = some t') : t'.Settled hash (applyTo entries operation) := by
  rw [PropertyTable.step] at hstep
  rcases h.perform hfits with ⟨t'', hok, hsettle⟩ | ⟨herr, -⟩
  · rw [hok] at hstep
    cases hstep
    exact hsettle
  · rw [herr] at hstep
    cases hstep

/-- In every run whose sizes do not overflow the table is a map, and every operation does what it does
to the map. -/
theorem always_follows {capacity : ℕ} (hcap : capacity < 2 ^ 30) {operations : List (Operation K)}
    (hguard : Runs.Guarded (step hash) Fits (create (sizeForCapacity capacity) none) operations) :
    Runs.Always (step hash) (fun t => ∃ entries, t.OrderedMap hash entries) (Follows hash)
      (create (sizeForCapacity capacity) none) operations := by
  have hstate : ∀ t : PropertyTable K, (∃ entries, t.Settled hash entries) →
      ∃ entries, t.OrderedMap hash entries := fun t ⟨entries, h⟩ => ⟨entries, h.orderedMap⟩
  refine Runs.always_of_guarded (step hash) hstate ?_ ⟨[], Settled.create hcap⟩ hguard
  intro t operation ⟨entries, h⟩ hfits
  exact ⟨h.follows hfits, fun t' hstep => ⟨_, h.step hfits hstep⟩⟩

end Operations

end PropertyTable

inductive Use (K : Type) where
  | add (key : K) (attributes : UInt8) (hasInferredType : Bool) (offset : ℤ)
    (offsetEffect : EffectOnPropertyOffset)
  | remove (key : K)
  | copy (newCapacity : ℕ)

namespace PropertyTable

section Uses

variable (inlineCapacity : ℤ) (t : PropertyTable K)

def performUse : Use K → Except Failure (PropertyTable K)
  | .add key attributes hasInferredType offset offsetEffect =>
    let (entryOffset, t) := t.nextOffset inlineCapacity
    t.perform hash (.add key entryOffset attributes hasInferredType offset offsetEffect)
  | .remove key => do
    let (found, _) ← t.find hash key
    match found.bind (t.table[·]?) with
    | none => t.remove hash key
    | some entry =>
      let t ← t.remove hash key
      .ok (t.addDeletedOffset entry.offset)
  | .copy newCapacity => t.copy hash newCapacity

def stepUse (use : Use K) : Option (PropertyTable K) :=
  (t.performUse hash inlineCapacity use).toOption

def deletedList : List ℤ := t.deletedOffsets.getD []

structure KeepsOffsets (t : PropertyTable K) (entries : List (PropertyMapEntry K)) : Prop where
  orderedMap : t.OrderedMap hash entries
  nodup : (entries.map (·.offset) ++ t.deletedList).Nodup
  storage : t.propertyStorageSize = (entries.map (·.offset)).length + t.deletedList.length

/-- The sizes do not overflow, and no deleted offset is taken for a key that is already there. -/
def FitsUse : Use K → Prop
  | .add key .. => (t.canInsert = false → t.keyCount + 1 < 2 ^ 30) ∧
    (t.hasDeletedOffset = true → ∀ place slot, t.find hash key ≠ .ok (some place, slot))
  | .copy newCapacity => newCapacity < 2 ^ 30 ∧ t.keyCount ≤ sizeForCapacity newCapacity >>> 1
  | .remove _ => True

instance decidableFitsUse (t : PropertyTable K) : (use : Use K) → Decidable (t.FitsUse hash use)
  | .add key .. => @instDecidableAnd _ _ inferInstance <|
    decidable_of_iff (t.hasDeletedOffset = true → (t.find hash key).toOption.all (·.1.isNone)) <| by
      refine imp_congr_right fun _ => ?_
      cases t.find hash key with
      | error failure => simp [Except.toOption]
      | ok found => obtain ⟨_ | place, slot⟩ := found <;> simp [Except.toOption]
  | .copy _ => inferInstanceAs (Decidable (_ ∧ _))
  | .remove _ => .isTrue trivial

def FirstOffsets (entries : List (PropertyMapEntry K)) : Prop :=
  (entries.map (·.offset) ++ t.deletedList).Perm
    ((range (entries.length + t.deletedList.length)).map
      fun n : ℕ => offsetForPropertyNumber n inlineCapacity)

variable {hash} {inlineCapacity} {t : PropertyTable K} {entries : List (PropertyMapEntry K)}

theorem offsetForPropertyNumber_inj (hinline : inlineCapacity ≤ firstOutOfLineOffset) {n m : ℕ}
    (heq : offsetForPropertyNumber n inlineCapacity = offsetForPropertyNumber m inlineCapacity) :
    n = m := by
  unfold offsetForPropertyNumber firstOutOfLineOffset at heq
  unfold firstOutOfLineOffset at hinline
  split_ifs at heq <;> omega

theorem Settled.keepsOffsets (h : t.Settled hash entries)
    (hinline : inlineCapacity ≤ firstOutOfLineOffset)
    (hfst : t.FirstOffsets inlineCapacity entries) : t.KeepsOffsets hash entries := by
  refine ⟨h.orderedMap, ?_, ?_⟩
  · refine hfst.nodup_iff.mpr (nodup_range.map ?_)
    exact fun n m heq => offsetForPropertyNumber_inj hinline heq
  · rw [propertyStorageSize, h.orderedMap.size_eq, length_map, deletedList]
    cases t.deletedOffsets <;> rfl

omit [DecidableEq K] in
theorem nextOffset_of_nil (hnil : t.deletedList = []) :
    t.nextOffset inlineCapacity = (offsetForPropertyNumber t.size inlineCapacity, t) := by
  unfold nextOffset
  cases hoffs : t.deletedOffsets with
  | none => rfl
  | some offsets =>
    rw [deletedList, hoffs] at hnil
    obtain rfl : offsets = [] := hnil
    rfl

omit [DecidableEq K] in
theorem nextOffset_of_append {offsets : List ℤ} (hlist : t.deletedList = offsets ++ [offset]) :
    t.nextOffset inlineCapacity = (offset, { t with deletedOffsets := some offsets }) := by
  unfold nextOffset
  cases hoffs : t.deletedOffsets with
  | none =>
    rw [deletedList, hoffs] at hlist
    exact absurd hlist.symm (append_ne_nil_of_right_ne_nil _ (cons_ne_nil _ _))
  | some offsets' =>
    rw [deletedList, hoffs] at hlist
    obtain rfl : offsets' = offsets ++ [offset] := hlist
    simp only [getLast?_concat, dropLast_concat]

omit [DecidableEq K] in
theorem hasDeletedOffset_iff : t.hasDeletedOffset ↔ t.deletedList ≠ [] := by
  unfold hasDeletedOffset deletedList
  cases t.deletedOffsets with
  | none => simp
  | some offsets => simp

variable {entry : PropertyMapEntry K} {t' : PropertyTable K} {key : K}

/-- A new entry takes an offset that was given back, or else the next one. -/
theorem firstOffsets_nextOffset (h : t.Settled hash entries)
    (hfst : t.FirstOffsets inlineCapacity entries)
    (hoff : entry.offset = (t.nextOffset inlineCapacity).1)
    (hdel : t'.deletedOffsets = (t.nextOffset inlineCapacity).2.deletedOffsets) :
    t'.FirstOffsets inlineCapacity (entries ++ [entry]) := by
  unfold FirstOffsets at hfst ⊢
  rw [map_append, map_singleton, length_append, length_singleton, hoff, deletedList, hdel]
  rcases eq_nil_or_concat' t.deletedList with hnil | ⟨offsets, offset, hlist⟩
  · rw [nextOffset_of_nil hnil, h.orderedMap.size_eq]
    rw [hnil, append_nil, length_nil, add_zero] at hfst
    change (_ ++ t.deletedList).Perm (map _ (range (_ + t.deletedList.length)))
    rw [hnil, append_nil, length_nil, add_zero, range_succ, map_append]
    exact hfst.append_right _
  · rw [nextOffset_of_append hlist]
    rw [hlist, length_append, length_singleton] at hfst
    change (entries.map _ ++ [offset] ++ offsets).Perm
      (map _ (range (entries.length + 1 + offsets.length)))
    rw [show entries.length + 1 + offsets.length = entries.length + (offsets.length + 1) by omega]
    refine List.Perm.trans ?_ hfst
    rw [append_assoc]
    exact perm_append_comm.append_left _

/-- Without the entry of a key the map has the others, and its offset is free. -/
theorem OrderedMap.perm_filter (h : t.OrderedMap hash entries) (hent : entry ∈ entries)
    (hkey : entry.key = .live key) :
    entries.Perm (entry :: entries.filter (·.key ≠ .live key)) := by
  have hfilt : entries.filter (·.key ≠ .live key) = entries.filter (· ≠ entry) := by
    apply filter_congr
    intro other hoth
    rw [decide_eq_decide, not_iff_not, ← hkey]
    exact ⟨fun hsame => inj_on_of_nodup_map h.nodup hoth hent hsame, fun heq => heq ▸ rfl⟩
  have herase : entries.erase entry = entries.filter (· ≠ entry) := by
    rw [h.nodup.of_map.erase_eq_filter]
    exact filter_congr fun other _ => by rw [Bool.eq_iff_iff, bne_iff_ne, decide_eq_true_iff]
  rw [hfilt, ← herase]
  exact perm_cons_erase hent

theorem firstOffsets_addDeletedOffset (h : t.OrderedMap hash entries)
    (hfst : t.FirstOffsets inlineCapacity entries) (hent : entry ∈ entries)
    (hkey : entry.key = .live key) (hdel : t'.deletedOffsets = t.deletedOffsets) :
    (t'.addDeletedOffset entry.offset).FirstOffsets inlineCapacity
      (entries.filter (·.key ≠ .live key)) := by
  have hperm := h.perm_filter hent hkey
  have hlen := hperm.length_eq
  rw [length_cons] at hlen
  have hlist : (t'.addDeletedOffset entry.offset).deletedList = t.deletedList ++ [entry.offset] := by
    rw [deletedList, deletedList, ← hdel]
    rfl
  unfold FirstOffsets at hfst ⊢
  rw [hlist, length_append, length_singleton]
  rw [hlen] at hfst
  rw [show (entries.filter (·.key ≠ .live key)).length + (t.deletedList.length + 1) =
    (entries.filter (·.key ≠ .live key)).length + 1 + t.deletedList.length by omega]
  refine List.Perm.trans ?_ hfst
  have hmap := (hperm.map (·.offset)).append_right t.deletedList
  refine List.Perm.trans ?_ hmap.symm
  rw [← append_assoc]
  exact perm_append_singleton _ _

omit [DecidableEq K] in
theorem FirstOffsets.congr (hfst : t.FirstOffsets inlineCapacity entries)
    (hdel : t'.deletedOffsets = t.deletedOffsets) : t'.FirstOffsets inlineCapacity entries := by
  unfold FirstOffsets deletedList at hfst ⊢
  rwa [hdel]

/-- A key that is there takes no deleted offset, so that none is lost. -/
theorem OrderedMap.nextOffset_of_present (h : t.OrderedMap hash entries)
    (hpres : ∃ entry ∈ entries, entry.key = .live key)
    (hguard : t.hasDeletedOffset → ∀ place slot, t.find hash key ≠ .ok (some place, slot)) :
    t.nextOffset inlineCapacity = (offsetForPropertyNumber t.size inlineCapacity, t) := by
  obtain ⟨entry, hmem, hkey⟩ := hpres
  obtain ⟨place, slot, hfind, hplace⟩ := h.find_spec key
  apply nextOffset_of_nil
  by_contra hne
  cases place with
  | none =>
    rw [Option.bind_none, eq_comm, find?_eq_none] at hplace
    exact hplace entry hmem (decide_eq_true hkey)
  | some place => exact hguard (hasDeletedOffset_iff.mpr hne) place slot hfind

section

variable (h : t.Settled hash entries) (hfst : t.FirstOffsets inlineCapacity entries)

include h hfst

theorem Settled.performUse_add
    (hfits : t.FitsUse hash (.add key attributes inferred offset effect)) :
    (∃ t' entries', t.performUse hash inlineCapacity
        (.add key attributes inferred offset effect) = .ok t' ∧
      t'.Settled hash entries' ∧ t'.FirstOffsets inlineCapacity entries') ∨
      t.performUse hash inlineCapacity (.add key attributes inferred offset effect) =
        .error .releaseAssert := by
  have huse : t.performUse hash inlineCapacity
      (.add key attributes inferred offset effect) = (t.nextOffset inlineCapacity).2.perform hash
          (.add key (t.nextOffset inlineCapacity).1 attributes inferred offset effect) := rfl
  rw [huse]
  by_cases hpres : ∃ entry ∈ entries, entry.key = .live key
  · rw [h.orderedMap.nextOffset_of_present hpres hfits.2]
    obtain ⟨existing, hexist, hkey⟩ := hpres
    rcases h.perform_add_present hexist hkey with hok | ⟨herr, -⟩
    · exact .inl ⟨t, entries, hok, h, hfst⟩
    · exact .inr herr
  · push Not at hpres
    obtain ⟨offsets, hnext⟩ := exists_nextOffset t inlineCapacity
    have hsettle : (t.nextOffset inlineCapacity).2.Settled hash entries := by
      rw [hnext]
      exact h.of_deletedOffsets offsets
    have hguard : (t.nextOffset inlineCapacity).2.canInsert = false →
        (t.nextOffset inlineCapacity).2.keyCount + 1 < 2 ^ 30 := by
      rw [hnext]
      exact hfits.1
    rcases hsettle.perform_add_absent hpres hguard with ⟨t', hok, hsettle', hoffs⟩ | ⟨herr, -⟩
    · exact .inl ⟨t', _, hok, hsettle', firstOffsets_nextOffset h hfst rfl hoffs⟩
    · exact .inr herr

theorem Settled.performUse_remove (key : K) :
    ∃ t' entries', t.performUse hash inlineCapacity (.remove key) = .ok t' ∧
      t'.Settled hash entries' ∧ t'.FirstOffsets inlineCapacity entries' := by
  obtain ⟨place, slot, hfind, hplace⟩ := h.orderedMap.find_spec key
  obtain ⟨t', hok, hsettle, hoffs⟩ := h.remove key
  have huse : t.performUse hash inlineCapacity (.remove key) =
      match entries.find? (·.key = .live key) with
      | none => .ok t'
      | some entry => .ok (t'.addDeletedOffset entry.offset) := by
    rw [← hplace]
    simp only [PropertyTable.performUse, hfind, hok]
    rfl
  cases hent : entries.find? (·.key = .live key) with
  | none =>
    rw [hent] at huse
    refine ⟨t', _, huse, hsettle, ?_⟩
    have hfilt : entries.filter (·.key ≠ .live key) = entries := by
      rw [filter_eq_self]
      intro entry hmem
      have hkey := List.find?_eq_none.mp hent entry hmem
      rw [decide_eq_true_iff] at hkey
      exact decide_eq_true hkey
    rw [hfilt]
    exact hfst.congr hoffs
  | some entry =>
    rw [hent] at huse
    have hkey := find?_some hent
    rw [decide_eq_true_iff] at hkey
    refine ⟨_, _, huse, hsettle.of_deletedOffsets _, ?_⟩
    exact firstOffsets_addDeletedOffset h.orderedMap hfst (mem_of_find?_eq_some hent) hkey
      hoffs

/-- Every use keeps the map and the offsets, or is stopped by a release assertion. -/
theorem Settled.performUse {use : Use K} (hfits : t.FitsUse hash use) :
    (∃ t' entries', t.performUse hash inlineCapacity use = .ok t' ∧ t'.Settled hash entries' ∧
      t'.FirstOffsets inlineCapacity entries') ∨
      t.performUse hash inlineCapacity use = .error .releaseAssert := by
  cases use with
  | add key attributes inferred offset effect => exact h.performUse_add hfst hfits
  | remove key => exact .inl (h.performUse_remove hfst key)
  | copy newCapacity =>
    obtain ⟨t', hok, hsettle, hoffs⟩ := h.copy hfits.1 hfits.2
    exact .inl ⟨t', entries, hok, hsettle, hfst.congr hoffs⟩

end

/-- In every run of uses whose sizes do not overflow, and in which no deleted offset is taken for a key
that is already there, the offsets are kept. -/
theorem always_keepsOffsets {capacity : ℕ} (hcap : capacity < 2 ^ 30)
    (hinline : inlineCapacity ≤ firstOutOfLineOffset) {uses : List (Use K)}
    (hguard : Runs.Guarded (stepUse hash inlineCapacity) (FitsUse hash)
      (create (sizeForCapacity capacity) none) uses) :
    Runs.Always (stepUse hash inlineCapacity) (fun t => ∃ entries, t.KeepsOffsets hash entries)
      (fun t use => t.performUse hash inlineCapacity use ≠ .error .outside)
      (create (sizeForCapacity capacity) none) uses := by
  have hstate : ∀ t : PropertyTable K,
      (∃ entries, t.Settled hash entries ∧ t.FirstOffsets inlineCapacity entries) →
        ∃ entries, t.KeepsOffsets hash entries :=
    fun t ⟨entries, h, hfst⟩ => ⟨entries, h.keepsOffsets hinline hfst⟩
  refine Runs.always_of_guarded (stepUse hash inlineCapacity) hstate ?_
    ⟨[], Settled.create hcap, List.Perm.refl _⟩ hguard
  intro t use ⟨entries, h, hfst⟩ hfits
  rcases h.performUse hfst hfits with ⟨t', entries', hok, hsettle', hfst'⟩ | herr
  · rw [hok]
    refine ⟨nofun, fun t'' hstep => ?_⟩
    rw [stepUse, hok] at hstep
    cases hstep
    exact ⟨entries', hsettle', hfst'⟩
  · rw [herr]
    refine ⟨nofun, fun t'' hstep => ?_⟩
    rw [stepUse, herr] at hstep
    cases hstep

end Uses

/-- In every run the table is a map that keeps the order, and offsets that are taken from the table
and given back are distinct and have places in the storage. -/
theorem map_and_offsets {capacity : ℕ} (hcapacity : capacity < 2 ^ 30) :
    (∀ operations : List (Operation K),
      Runs.Guarded (step hash) Fits (create (sizeForCapacity capacity) none) operations →
        Runs.Always (step hash) (fun t => ∃ entries, t.OrderedMap hash entries) (Follows hash)
          (create (sizeForCapacity capacity) none) operations) ∧
    ∀ inlineCapacity ≤ firstOutOfLineOffset, ∀ uses : List (Use K),
      Runs.Guarded (stepUse hash inlineCapacity) (FitsUse hash)
        (create (sizeForCapacity capacity) none) uses →
        Runs.Always (stepUse hash inlineCapacity) (fun t => ∃ entries, t.KeepsOffsets hash entries)
          (fun t use => t.performUse hash inlineCapacity use ≠ .error .outside)
          (create (sizeForCapacity capacity) none) uses :=
  ⟨fun _ hguard => always_follows hcapacity hguard,
    fun _ hinline _ hguard => always_keepsOffsets hcapacity hinline hguard⟩

def fillOperations : List (Operation ℕ) :=
  (range 8).map (fun key => .add key key 0 false 8 .propertyOffsetMayChange) ++
    [.remove 3, .add 3 8 0 false 8 .propertyOffsetMayChange, .copy 20]

def reuse : List (Use ℕ) :=
  [1, 2].map (fun key => .add key 0 false 100 .propertyOffsetMayChange) ++ [.remove 1] ++
    (range' 3 7).map (fun key => .add key 0 false 100 .propertyOffsetMayChange) ++ [.copy 20]

/-- The offset of a removed key is taken again, a full table is rehashed, and it is copied. -/
theorem map_and_offsets_reused :
    Runs.Always (step id) (fun t => ∃ entries, t.OrderedMap id entries) (Follows id)
      (create (sizeForCapacity 0) none) fillOperations ∧
    Runs.Always (stepUse id 64) (fun t => ∃ entries, t.KeepsOffsets id entries)
      (fun t use => t.performUse id 64 use ≠ .error .outside) (create (sizeForCapacity 0) none) reuse := by
  have h := map_and_offsets (id : ℕ → ℕ) (show 0 < 2 ^ 30 by decide)
  exact ⟨h.1 _ (Runs.guarded_of_guards _ (by decide +kernel)),
    h.2 64 (by decide) _ (Runs.guarded_of_guards _ (by decide +kernel))⟩

example : ((Runs.run (stepUse id 64) (create (sizeForCapacity 0) none) reuse).bind
    fun t => t.inOrder.toOption).map (·.map (·.offset)) = some [1, 0, 2, 3, 4, 5, 6, 7] := by
  decide +kernel

/-- The offset of the removed key is taken for a key that is already there and is lost; the next new key
then gets the offset of the other. -/
theorem not_distinct_offset_lost : ((Runs.run (stepUse id 64) (create (sizeForCapacity 0) none)
      [Use.add 1 0 false 100 .propertyOffsetMayChange, .add 2 0 false 100 .propertyOffsetMayChange,
        .remove 1, .add 2 0 false 100 .propertyOffsetMayChange,
        .add 3 0 false 100 .propertyOffsetMayChange]).bind fun t => t.inOrder.toOption).map
      (·.map fun entry => (entry.key, entry.offset)) = some [(.live 2, 1), (.live 3, 1)] := by
  decide +kernel

end PropertyTable

end WebKit.Runtime
