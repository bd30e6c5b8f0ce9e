import Mathlib

/-!
Partial maps from numbers given by lists of ranges. The ranges of a list are
sorted and do not overlap, so at most one of them contains a number, and its data
is the value there. Merging two such lists cuts ranges where only a part of them
meets a range of the other list.
-/

namespace WebKit.RangeMaps

open List

structure Range (Data : Type*) where
  first : ℕ
  last : ℕ
  data : Data

variable {Data Other : Type*}

abbrev Range.Contains (range : Range Data) (c : ℕ) : Prop := range.first ≤ c ∧ c ≤ range.last

structure Sorted (ranges : List (Range Data)) : Prop where
  nonempty : ∀ range ∈ ranges, range.first ≤ range.last
  pairwise : ranges.Pairwise fun range next => range.last < next.first

def lookup : List (Range Data) → ℕ → Option Data
  | [], _ => none
  | range :: rest, c => if range.Contains c then some range.data else lookup rest c

theorem Sorted.nil : Sorted ([] : List (Range Data)) :=
  ⟨nofun, List.Pairwise.nil⟩

variable {range : Range Data} {rest ranges : List (Range Data)} {last c : ℕ}

theorem sorted_cons :
    Sorted (range :: rest) ↔ range.first ≤ range.last ∧ (∀ next ∈ rest, range.last < next.first) ∧
      Sorted rest := by
  constructor
  · intro h
    obtain ⟨hnext, hrest⟩ := pairwise_cons.mp h.pairwise
    exact ⟨h.nonempty range mem_cons_self, hnext,
      fun next hmem => h.nonempty next (mem_cons_of_mem _ hmem), hrest⟩
  · intro ⟨hfst, hnext, hrest⟩
    refine ⟨?_, pairwise_cons.mpr ⟨hnext, hrest.pairwise⟩⟩
    intro other hmem
    rcases mem_cons.mp hmem with rfl | hmem
    · exact hfst
    · exact hrest.nonempty other hmem

theorem Sorted.append (h : Sorted ranges) (hrest : Sorted rest)
    (hlt : ∀ range ∈ ranges, ∀ next ∈ rest, range.last < next.first) : Sorted (ranges ++ rest) :=
  ⟨forall_mem_append.mpr ⟨h.nonempty, hrest.nonempty⟩,
    pairwise_append.mpr ⟨h.pairwise, hrest.pairwise, hlt⟩⟩

theorem sorted_singleton {first : ℕ} (data : Data) (h : first ≤ last) :
    Sorted [⟨first, last, data⟩] :=
  sorted_cons.mpr ⟨h, nofun, Sorted.nil⟩

theorem lookup_cons (range : Range Data) (rest : List (Range Data)) (c : ℕ) :
    lookup (range :: rest) c = if range.Contains c then some range.data else lookup rest c := rfl

theorem lookup_append (ranges rest : List (Range Data)) (c : ℕ) :
    lookup (ranges ++ rest) c = (lookup ranges c).or (lookup rest c) := by
  induction ranges with
  | nil => rfl
  | cons range ranges ih =>
    rw [cons_append, lookup_cons, lookup_cons]
    split_ifs
    · rfl
    · exact ih

theorem lookup_eq_none (h : ∀ range ∈ ranges, ¬ range.Contains c) : lookup ranges c = none := by
  induction ranges with
  | nil => rfl
  | cons range rest ih =>
    rw [lookup_cons, if_neg (h range mem_cons_self)]
    exact ih fun next hmem => h next (mem_cons_of_mem _ hmem)

theorem lookup_of_lt (h : ∀ range ∈ ranges, c < range.first) : lookup ranges c = none :=
  lookup_eq_none fun range hmem hcont => absurd hcont.1 (Nat.not_le.mpr (h range hmem))

theorem exists_of_lookup {data : Data} (h : lookup ranges c = some data) :
    ∃ range ∈ ranges, range.Contains c ∧ range.data = data := by
  induction ranges with
  | nil => cases h
  | cons range rest ih =>
    rw [lookup_cons] at h
    split_ifs at h with hcont
    · exact ⟨range, mem_cons_self, hcont, Option.some.inj h⟩
    · exact exists_mem_cons_of_exists (ih h)

/-- In a sorted list a range gives the value at each of its numbers. -/
theorem Sorted.lookup_of_mem (h : Sorted ranges) (hmem : range ∈ ranges)
    (hcont : range.Contains c) : lookup ranges c = some range.data := by
  induction ranges with
  | nil => cases hmem
  | cons first rest ih =>
    obtain ⟨hfst, hnext, hrest⟩ := sorted_cons.mp h
    rw [lookup_cons]
    rcases mem_cons.mp hmem with rfl | hmem
    · exact if_pos hcont
    · rw [if_neg, ih hrest hmem]
      intro hoth
      have hlt := hnext range hmem
      omega

/-- At most one range of a sorted list contains a number. -/
theorem Sorted.index_eq (h : Sorted ranges) {i j : ℕ} {other : Range Data}
    (hrng : ranges[i]? = some range) (hoth : ranges[j]? = some other) (hc : range.Contains c)
    (hc' : other.Contains c) : i = j := by
  obtain ⟨hi, rfl⟩ := List.getElem?_eq_some_iff.mp hrng
  obtain ⟨hj, rfl⟩ := List.getElem?_eq_some_iff.mp hoth
  have hpair := pairwise_iff_getElem.mp h.pairwise
  by_contra hne
  rcases Nat.lt_or_gt_of_ne hne with hlt | hlt
  · have := hpair i j hi hj hlt
    omega
  · have := hpair j i hj hi hlt
    omega

theorem Sorted.exists_iff (h : Sorted ranges) (P : Data → Prop) (c : ℕ) :
    (∃ range ∈ ranges, range.Contains c ∧ P range.data) ↔ ∃ data ∈ lookup ranges c, P data := by
  constructor
  · intro ⟨range, hmem, hcont, hdata⟩
    exact ⟨range.data, h.lookup_of_mem hmem hcont, hdata⟩
  · intro ⟨data, hget, hdata⟩
    obtain ⟨range, hmem, hcont, rfl⟩ := exists_of_lookup hget
    exact ⟨range, hmem, hcont, hdata⟩

/-- A sorted list has at most as many ranges as there are numbers below its bound. -/
theorem Sorted.length_le (h : Sorted ranges) (lower : ℕ) {bound : ℕ}
    (hlow : ∀ range ∈ ranges, lower ≤ range.first) (hbound : ∀ range ∈ ranges, range.last < bound) :
    ranges.length ≤ bound - lower := by
  induction ranges generalizing lower with
  | nil => exact Nat.zero_le _
  | cons range rest ih =>
    obtain ⟨hfst, hnext, hrest⟩ := sorted_cons.mp h
    have hrng := hlow range mem_cons_self
    have hlast := hbound range mem_cons_self
    have hlen := ih hrest (range.last + 1) hnext
      fun next hmem => hbound next (mem_cons_of_mem _ hmem)
    simp only [length_cons]
    omega

structure Range.Rel (R : Data → Other → Prop) (range : Range Data) (other : Range Other) : Prop where
  first : other.first = range.first
  last : other.last = range.last
  data : R range.data other.data

variable {R : Data → Other → Prop} {others : List (Range Other)} {range : Range Data}

theorem sorted_of_rel (hrel : List.Forall₂ (Range.Rel R) ranges others) (h : Sorted ranges) :
    Sorted others := by
  induction hrel with
  | nil => exact Sorted.nil
  | cons hfst hrest ih =>
    obtain ⟨hne, hnext, hsort⟩ := sorted_cons.mp h
    refine sorted_cons.mpr ⟨by rw [hfst.first, hfst.last]; exact hne, ?_, ih hsort⟩
    rw [hfst.last]
    intro next hmem
    obtain ⟨i, hi, rfl⟩ := mem_iff_getElem.mp hmem
    have hget := hrest.get (by rw [hrest.length_eq]; exact hi) hi
    simp only [get_eq_getElem] at hget
    rw [hget.first]
    exact hnext _ (getElem_mem _)

theorem lookup_of_rel (hrel : List.Forall₂ (Range.Rel R) ranges others) (c : ℕ) :
    Option.Rel R (lookup ranges c) (lookup others c) := by
  induction hrel with
  | nil => exact Option.Rel.none
  | cons hfst _ ih =>
    rw [lookup_cons, lookup_cons]
    simp only [Range.Contains, hfst.first, hfst.last]
    split_ifs
    · exact Option.Rel.some hfst.data
    · exact ih

theorem lookup_map_data (f : Data → Other) (ranges : List (Range Data)) (c : ℕ) :
    lookup (ranges.map fun range => ⟨range.first, range.last, f range.data⟩) c =
      (lookup ranges c).map f := by
  induction ranges with
  | nil => rfl
  | cons range rest ih =>
    rw [map_cons, lookup_cons, lookup_cons, ih]
    split_ifs <;> rfl

theorem Sorted.map_data (h : Sorted ranges) (f : Data → Other) :
    Sorted (ranges.map fun range => ⟨range.first, range.last, f range.data⟩) :=
  ⟨forall_mem_map.mpr h.nonempty, pairwise_map.mpr h.pairwise⟩

def past (last : ℕ) (range : Range Data) (rest : List (Range Data)) : List (Range Data) :=
  if range.last ≤ last then rest else { range with first := last + 1 } :: rest

theorem length_past_le (last : ℕ) (range : Range Data) (rest : List (Range Data)) :
    (past last range rest).length ≤ rest.length + 1 := by
  unfold past
  split_ifs
  · exact Nat.le_succ _
  · exact le_rfl

theorem past_of_le (h : range.last ≤ last) (rest : List (Range Data)) :
    past last range rest = rest := if_pos h

theorem past_of_lt (h : last < range.last) (rest : List (Range Data)) :
    past last range rest = { range with first := last + 1 } :: rest := if_neg (Nat.not_le.mpr h)

theorem sorted_past (h : Sorted (range :: rest)) : Sorted (past last range rest) := by
  obtain ⟨hfst, hnext, hrest⟩ := sorted_cons.mp h
  unfold past
  split_ifs with hle
  · exact hrest
  · exact sorted_cons.mpr ⟨Nat.not_le.mp hle, hnext, hrest⟩

/-- Past a number of the first range, all ranges are above that number. -/
theorem lt_first_of_mem_past {next : Range Data} (h : Sorted (range :: rest))
    (hlast : last ≤ range.last) (hmem : next ∈ past last range rest) : last < next.first := by
  obtain ⟨-, hnext, -⟩ := sorted_cons.mp h
  unfold past at hmem
  split_ifs at hmem with hle
  · exact lt_of_le_of_lt hlast (hnext next hmem)
  · rcases mem_cons.mp hmem with rfl | hmem
    · exact Nat.lt_succ_self last
    · exact lt_of_le_of_lt hlast (hnext next hmem)

theorem lookup_past (hfst : range.first ≤ last + 1) (hc : last < c) :
    lookup (past last range rest) c = lookup (range :: rest) c := by
  unfold past
  split_ifs with hle
  · rw [lookup_cons, if_neg]
    omega
  · rw [lookup_cons, lookup_cons]
    congr 1
    simp only [Range.Contains, eq_iff_iff]
    omega

section Merge

variable (convert : Other → Data) (extend : Data → Other → Data)

def overhang (range : Range Data) (other : Range Other) : List (Range Data) :=
  if range.first < other.first then [⟨range.first, other.first - 1, range.data⟩]
  else if other.first < range.first then [⟨other.first, range.first - 1, convert other.data⟩]
  else []

def overlap (range : Range Data) (other : Range Other) : Range Data :=
  ⟨max range.first other.first, min range.last other.last, extend range.data other.data⟩

def merge : List (Range Data) → List (Range Other) → List (Range Data)
  | ranges, [] => ranges
  | [], others => others.map fun other => ⟨other.first, other.last, convert other.data⟩
  | range :: ranges, other :: others =>
    if range.last < other.first then range :: merge ranges (other :: others)
    else if other.last < range.first then
      ⟨other.first, other.last, convert other.data⟩ :: merge (range :: ranges) others
    else
      overhang convert range other ++ overlap extend range other ::
        merge (past (min range.last other.last) range ranges)
          (past (min range.last other.last) other others)
termination_by ranges others => ranges.length + others.length
decreasing_by
  · simp
  · simp
  · have hle := length_past_le (min range.last other.last) range ranges
    have hle' := length_past_le (min range.last other.last) other others
    simp only [length_cons]
    rcases le_total range.last other.last with h | h
    · rw [min_eq_left h] at hle' ⊢
      rw [past_of_le le_rfl]
      omega
    · rw [min_eq_right h] at hle ⊢
      rw [past_of_le le_rfl others]
      omega

def combine : Option Data → Option Other → Option Data
  | some data, some other => some (extend data other)
  | none, some other => some (convert other)
  | value, none => value

variable {convert extend}

theorem merge_nil_left (others : List (Range Other)) : merge convert extend [] others =
    others.map fun other => ⟨other.first, other.last, convert other.data⟩ := by
  cases others with
  | nil => rw [merge, map_nil]
  | cons other others =>
    rw [merge]
    exact cons_ne_nil _ _

@[simp]
theorem combine_none_right (value : Option Data) : combine convert extend value none = value := by
  cases value <;> rfl

@[simp]
theorem combine_none_left (other : Option Other) :
    combine convert extend none other = other.map convert := by
  cases other <;> rfl

abbrev Meet (range : Range Data) (other : Range Other) : Prop :=
  other.first ≤ range.last ∧ range.first ≤ other.last

theorem sorted_overhang (convert : Other → Data) (range : Range Data) (other : Range Other) :
    Sorted (overhang convert range other) := by
  unfold overhang
  split_ifs
  · exact sorted_singleton _ (by omega)
  · exact sorted_singleton _ (by omega)
  · exact Sorted.nil

/-- The part before both ranges have started goes from the start of one to that of the other. -/
theorem mem_overhang {part : Range Data} {other : Range Other}
    (hmem : part ∈ overhang convert range other) :
    part.first = range.first ∧ part.last + 1 = other.first ∨
      part.first = other.first ∧ part.last + 1 = range.first := by
  unfold overhang at hmem
  split_ifs at hmem with hlt hlt'
  · rw [mem_singleton.mp hmem]
    exact Or.inl ⟨rfl, Nat.sub_add_cancel (by omega)⟩
  · rw [mem_singleton.mp hmem]
    exact Or.inr ⟨rfl, Nat.sub_add_cancel (by omega)⟩
  · cases hmem

variable (extend) in
theorem lookup_overhang {other : Range Other} (hmeet : Meet range other) (c : ℕ) :
    lookup (overhang convert range other) c =
      if c < max range.first other.first then
        combine convert extend (lookup [range] c) (lookup [other] c)
      else none := by
  unfold overhang
  split_ifs <;> simp only [lookup, Range.Contains] <;> split_ifs <;> first | rfl | (exfalso; omega)

variable {c : ℕ} {ranges : List (Range Data)} {others : List (Range Other)}

/-- Up to the end of the first range, only that range matters. -/
theorem lookup_cons_of_le {rest : List (Range Data)}
    (h : Sorted (range :: rest)) (hc : c ≤ range.last) :
    lookup (range :: rest) c = lookup [range] c := by
  obtain ⟨-, hnext, -⟩ := sorted_cons.mp h
  rw [lookup_cons, lookup_cons, lookup_of_lt fun next hmem => lt_of_le_of_lt hc (hnext next hmem)]
  rfl

/-- What is below the first range of a sorted list is below all of them. -/
theorem Sorted.lt_first {rest : List (Range Data)} (h : Sorted (range :: rest))
    {lower : ℕ} (hlow : lower < range.first) : ∀ next ∈ range :: rest, lower < next.first := by
  obtain ⟨hfst, hnext, -⟩ := sorted_cons.mp h
  refine forall_mem_cons.mpr ⟨hlow, fun next hmem => ?_⟩
  exact (hlow.trans_le hfst).trans (hnext next hmem)

/-- A merge has at each number the combined value of the two lists. -/
theorem lookup_merge (h : Sorted ranges) (h' : Sorted others) (c : ℕ) :
    lookup (merge convert extend ranges others) c =
      combine convert extend (lookup ranges c) (lookup others c) := by
  induction ranges, others using merge.induct with
  | case1 ranges => rw [merge, lookup, combine_none_right]
  | case2 others hne =>
    rw [merge, lookup, combine_none_left]
    · exact lookup_map_data convert others c
    · exact hne
  | case3 range ranges other others hlt ih =>
    obtain ⟨-, -, hrest⟩ := sorted_cons.mp h
    rw [merge, if_pos hlt, lookup_cons, lookup_cons, ih hrest h']
    split_ifs with hc
    · rw [lookup_of_lt (h'.lt_first (by omega)), combine_none_right]
    · rfl
  | case4 range ranges other others hlt hlt' ih =>
    obtain ⟨-, -, hrest⟩ := sorted_cons.mp h'
    rw [merge, if_neg hlt, if_pos hlt', lookup_cons, lookup_cons other, ih h hrest]
    split_ifs with hc
    · have hlast : c ≤ other.last := hc.2
      rw [lookup_of_lt (h.lt_first (by omega)), combine_none_left, Option.map_some]
    · rfl
  | case5 range ranges other others hlt hlt' ih =>
    obtain ⟨hfst, -, -⟩ := sorted_cons.mp h
    obtain ⟨hfst', -, -⟩ := sorted_cons.mp h'
    have hmeet : Meet range other := ⟨Nat.not_lt.mp hlt, Nat.not_lt.mp hlt'⟩
    rw [merge, if_neg hlt, if_neg hlt', lookup_append, lookup_cons, lookup_overhang extend hmeet,
      ih (sorted_past h) (sorted_past h')]
    by_cases hc : c ≤ min range.last other.last
    · rw [lookup_of_lt fun next hmem => lt_of_le_of_lt hc
          (lt_first_of_mem_past h (min_le_left range.last other.last) hmem),
        lookup_of_lt fun next hmem => lt_of_le_of_lt hc
          (lt_first_of_mem_past h' (min_le_right range.last other.last) hmem),
        lookup_cons_of_le h (by omega), lookup_cons_of_le h' (by omega)]
      by_cases hstart : c < max range.first other.first
      · have hnot : ¬ (overlap extend range other).Contains c := fun hcont =>
          absurd hcont.1 (Nat.not_le.mpr hstart)
        rw [if_pos hstart, if_neg hnot, combine_none_right, Option.or_none]
      · have hcont : (overlap extend range other).Contains c := ⟨Nat.not_lt.mp hstart, hc⟩
        rw [if_neg hstart, if_pos hcont, lookup_cons, if_pos (by omega), lookup_cons,
          if_pos (by omega)]
        rfl
    · have hnot : ¬ (overlap extend range other).Contains c := fun hcont => hc hcont.2
      rw [lookup_past (by omega) (by omega), lookup_past (by omega) (by omega), if_neg (by omega),
        if_neg hnot]
      rfl

theorem lookup_ne_none_iff : lookup ranges c ≠ none ↔ ∃ range ∈ ranges, range.Contains c := by
  constructor
  · intro h
    obtain ⟨data, hdata⟩ := Option.ne_none_iff_exists'.mp h
    obtain ⟨range, hmem, hcont, -⟩ := exists_of_lookup hdata
    exact ⟨range, hmem, hcont⟩
  · intro ⟨range, hmem, hcont⟩ hnone
    induction ranges with
    | nil => cases hmem
    | cons first rest ih =>
      rw [lookup_cons] at hnone
      split_ifs at hnone with hfst
      rcases mem_cons.mp hmem with rfl | hmem
      · exact hfst hcont
      · exact ih hmem hnone

/-- A merge contains the numbers of both lists. -/
theorem exists_mem_merge_iff (h : Sorted ranges) (h' : Sorted others) :
    (∃ range ∈ merge convert extend ranges others, range.Contains c) ↔
      (∃ range ∈ ranges, range.Contains c) ∨ ∃ other ∈ others, other.Contains c := by
  rw [← lookup_ne_none_iff, ← lookup_ne_none_iff, ← lookup_ne_none_iff, lookup_merge h h']
  cases lookup ranges c <;> cases lookup others c <;> simp [combine]

section

variable (h : Sorted ranges) (h' : Sorted others)

include h h'

variable (convert extend) in
/-- A merge of sorted lists is sorted, and above all that is below both lists. -/
theorem merge_spec : Sorted (merge convert extend ranges others) ∧ ∀ lower,
      (∀ range ∈ ranges, lower < range.first) → (∀ other ∈ others, lower < other.first) →
        ∀ part ∈ merge convert extend ranges others, lower < part.first := by
  induction ranges, others using merge.induct with
  | case1 ranges =>
    rw [merge]
    exact ⟨h, fun lower hlow _ => hlow⟩
  | case2 others hne =>
    rw [merge_nil_left]
    exact ⟨h'.map_data convert, fun lower _ hlow' => forall_mem_map.mpr hlow'⟩
  | case3 range ranges other others hlt ih =>
    obtain ⟨hfst, hnext, hrest⟩ := sorted_cons.mp h
    obtain ⟨hsort, habove⟩ := ih hrest h'
    rw [merge, if_pos hlt]
    refine ⟨sorted_cons.mpr ⟨hfst, habove _ hnext (h'.lt_first hlt), hsort⟩, ?_⟩
    intro lower hlow hlow'
    obtain ⟨hrng, hrngs⟩ := forall_mem_cons.mp hlow
    exact forall_mem_cons.mpr ⟨hrng, habove lower hrngs hlow'⟩
  | case4 range ranges other others hlt hlt' ih =>
    obtain ⟨hfst, hnext, hrest⟩ := sorted_cons.mp h'
    obtain ⟨hsort, habove⟩ := ih h hrest
    rw [merge, if_neg hlt, if_pos hlt']
    refine ⟨sorted_cons.mpr ⟨hfst, habove _ (h.lt_first hlt') hnext, hsort⟩, ?_⟩
    intro lower hlow hlow'
    obtain ⟨hoth, hoths⟩ := forall_mem_cons.mp hlow'
    exact forall_mem_cons.mpr ⟨hoth, habove lower hlow hoths⟩
  | case5 range ranges other others hlt hlt' ih =>
    obtain ⟨hfst, -, -⟩ := sorted_cons.mp h
    obtain ⟨hfst', -, -⟩ := sorted_cons.mp h'
    obtain ⟨hsort, habove⟩ := ih (sorted_past h) (sorted_past h')
    have hafter : ∀ next ∈ merge convert extend (past (min range.last other.last) range ranges)
        (past (min range.last other.last) other others), min range.last other.last < next.first :=
      habove _ (fun next hmem => lt_first_of_mem_past h (min_le_left _ _) hmem)
        fun next hmem => lt_first_of_mem_past h' (min_le_right _ _) hmem
    have hlap : Sorted (overlap extend range other :: merge convert extend
        (past (min range.last other.last) range ranges)
        (past (min range.last other.last) other others)) := by
      refine sorted_cons.mpr ⟨?_, hafter, hsort⟩
      change max range.first other.first ≤ min range.last other.last
      omega
    rw [merge, if_neg hlt, if_neg hlt']
    refine ⟨(sorted_overhang convert range other).append hlap fun part hpart next hnext => ?_, ?_⟩
    · have hend : part.last < max range.first other.first := by
        have hcases := mem_overhang hpart
        omega
      exact hlap.lt_first hend next hnext
    · intro lower hlow hlow'
      have hrng := hlow range mem_cons_self
      have hoth := hlow' other mem_cons_self
      refine forall_mem_append.mpr ⟨fun part hpart => ?_, hlap.lt_first (lt_max_of_lt_left hrng)⟩
      have hcases := mem_overhang hpart
      omega

/-- A merge of sorted lists is sorted. -/
theorem Sorted.merge :
    Sorted (merge convert extend ranges others) := (merge_spec convert extend h h').1

/-- A merge ends where the lists end. -/
theorem last_lt_of_mem_merge {bound : ℕ} (hrngs : ∀ range ∈ ranges, range.last < bound)
    (hoths : ∀ other ∈ others, other.last < bound) :
    ∀ part ∈ RangeMaps.merge convert extend ranges others, part.last < bound := by
  intro part hpart
  have hcont : part.Contains part.last := ⟨(h.merge h').nonempty part hpart, le_rfl⟩
  rcases (exists_mem_merge_iff h h').mp ⟨part, hpart, hcont⟩ with
    ⟨range, hrng, hmem⟩ | ⟨other, hoth, hmem⟩
  · exact lt_of_le_of_lt hmem.2 (hrngs range hrng)
  · exact lt_of_le_of_lt hmem.2 (hoths other hoth)

end

abbrev Within (part : Range Data) (range : Range Other) : Prop :=
  range.first ≤ part.first ∧ part.last ≤ range.last

variable {part : Range Data}

abbrev Range.bounds (range : Range Data) : Range Unit := ⟨range.first, range.last, ()⟩

theorem map_bounds_past (last : ℕ) (range : Range Data) (rest : List (Range Data)) :
    (past last range rest).map Range.bounds = past last range.bounds (rest.map Range.bounds) :=
  apply_ite ..

variable (convert extend) in
/-- The bounds of a merge are those of the merged bounds. -/
theorem map_bounds_merge (ranges : List (Range Data)) (others : List (Range Other)) :
    (merge convert extend ranges others).map Range.bounds =
      merge (fun _ => ()) (fun _ _ => ()) (ranges.map Range.bounds) (others.map Range.bounds) := by
  induction ranges, others using merge.induct with
  | case1 ranges => rw [map_nil, merge, merge]
  | case2 others hne =>
    rw [map_nil, merge_nil_left, merge_nil_left, map_map, map_map]
    rfl
  | case3 range ranges other others hlt ih =>
    rw [map_cons] at ih
    rw [map_cons, map_cons, merge, if_pos hlt, merge, if_pos hlt, map_cons, ih]
  | case4 range ranges other others hlt hlt' ih =>
    rw [map_cons] at ih
    rw [map_cons, map_cons, merge, if_neg hlt, if_pos hlt', merge, if_neg hlt, if_pos hlt', map_cons,
      ih]
  | case5 range ranges other others hlt hlt' ih =>
    rw [map_bounds_past, map_bounds_past] at ih
    rw [map_cons, map_cons, merge, if_neg hlt, if_neg hlt', merge, if_neg hlt, if_neg hlt', map_append,
      map_cons, ih, overhang, overhang, apply_ite (map Range.bounds), apply_ite (map Range.bounds)]
    rfl

def selves (ranges : List (Range Data)) : List (Range (Range Data)) :=
  ranges.map fun range => ⟨range.first, range.last, range⟩

theorem sorted_selves (h : Sorted ranges) : Sorted (selves ranges) :=
  ⟨forall_mem_map.mpr h.nonempty, pairwise_map.mpr h.pairwise⟩

theorem lookup_selves_iff (h : Sorted ranges) :
    lookup (selves ranges) c = some range ↔ range ∈ ranges ∧ range.Contains c := by
  constructor
  · intro hget
    obtain ⟨self, hself, hc, rfl⟩ := exists_of_lookup hget
    obtain ⟨range, hmem, rfl⟩ := mem_map.mp hself
    exact ⟨hmem, hc⟩
  · intro ⟨hmem, hc⟩
    exact (sorted_selves h).lookup_of_mem (mem_map_of_mem hmem) hc

/-- A range whose numbers lie all in the same range of a list, or in none, is within those it
meets. -/
theorem within_of_lookup (h : Sorted others) (hne : part.first ≤ part.last)
    {value : Option (Range Other)} (hvalue : ∀ c, part.Contains c → lookup (selves others) c = value) :
    ∀ range ∈ others, Meet part range → Within part range := by
  intro range hrng hmeet
  have hrng' := h.nonempty range hrng
  have hget := hvalue (max part.first range.first) ⟨Nat.le_max_left _ _, by omega⟩
  rw [(lookup_selves_iff h).mpr ⟨hrng, by omega⟩] at hget
  subst hget
  exact ⟨((lookup_selves_iff h).mp (hvalue _ ⟨le_rfl, hne⟩)).2.1,
    ((lookup_selves_iff h).mp (hvalue _ ⟨hne, le_rfl⟩)).2.2⟩

def origins (ranges : List (Range Data)) (others : List (Range Other)) :
    List (Range (Option (Range Data) × Option (Range Other))) :=
  merge (fun other => (none, some other)) (fun origin other => (origin.1, some other))
    ((selves ranges).map fun range => ⟨range.first, range.last, some range.data, none⟩) (selves others)

/-- A merge cuts ranges so that each part is within the ranges of both lists that it meets. -/
theorem within_of_mem_merge (h : Sorted ranges) (h' : Sorted others)
    (hpart : part ∈ RangeMaps.merge convert extend ranges others) :
    (∀ range ∈ ranges, Meet part range → Within part range) ∧
      ∀ other ∈ others, Meet part other → Within part other := by
  have hmem : part.bounds ∈ (origins ranges others).map Range.bounds := by
    rw [origins, map_bounds_merge, selves, selves, map_map, map_map, map_map]
    exact map_bounds_merge convert extend ranges others ▸ mem_map_of_mem hpart
  obtain ⟨origin, horigin, heq⟩ := mem_map.mp hmem
  obtain ⟨hfst, hlast, -⟩ := Range.mk.inj heq
  have hnamed := (sorted_selves h).map_data fun range => (some range, (none : Option (Range Other)))
  have hsort : Sorted (origins ranges others) := hnamed.merge (sorted_selves h')
  have hvalue (c : ℕ) (hc : part.Contains c) :
      (lookup (selves ranges) c, lookup (selves others) c) = origin.data := by
    have hget := hsort.lookup_of_mem horigin (show origin.Contains c by rwa [Range.Contains, hfst, hlast])
    rw [origins, lookup_merge hnamed (sorted_selves h'),
      lookup_map_data fun range => (some range, none)] at hget
    revert hget
    cases lookup (selves ranges) c <;> cases lookup (selves others) c
    · exact nofun
    all_goals exact Option.some.inj
  have hne : part.first ≤ part.last := hfst ▸ hlast ▸ hsort.nonempty origin horigin
  exact ⟨within_of_lookup h hne fun c hc => congrArg Prod.fst (hvalue c hc),
    within_of_lookup h' hne fun c hc => congrArg Prod.snd (hvalue c hc)⟩

end Merge

end WebKit.RangeMaps
