import WebKit.Foundation.RangeMaps

/-!
The range lists that the automata are built with. The ranges are stored in any
order and linked by their indices: the first range has index 0, and a next index
of 0 ends the list. Extending a list by the ranges of another one is the merge of
the two as maps from characters.
-/

namespace WebKit.ContentExtensions

open RangeMaps
open List hiding merge
open Prod (snd fst)

structure MutableRange (Data : Type*) extends Range Data where
  nextRangeIndex : ℕ

structure DataConverter (Data Other : Type*) where
  convert : Other → Data
  extend : Data → Other → Data

abbrev MutableRangeList (Data : Type*) := List (MutableRange Data)

variable {Data Other : Type*} {others : List (Range Other)}

namespace MutableRangeList

variable (ranges : MutableRangeList Data)

def walk : ℕ → ℕ → List (Range Data)
  | 0, _ => []
  | fuel + 1, index =>
    match ranges[index]? with
    | none => []
    | some range =>
      range.toRange :: if range.nextRangeIndex = 0 then [] else walk fuel range.nextRangeIndex

def toList : List (Range Data) := ranges.walk ranges.length 0

def setNextRangeIndex (index : ℕ) (range : MutableRange Data) : MutableRange Data :=
  { range with nextRangeIndex := index }

def appendRange (lastRangeIndex : ℕ) (range : Range Data) : MutableRangeList Data × ℕ :=
  if ranges.length = 0 then ([⟨range, 0⟩], 0)
  else
    ((ranges ++ [MutableRange.mk range 0]).modify lastRangeIndex (setNextRangeIndex ranges.length),
      ranges.length)

/-- Insert a range between two neighbours; the new indices of the neighbours are returned. The first
range always stays at index 0. -/
def insertBetween (leftRangeIndex rightRangeIndex : ℕ) (range : Range Data) :
    MutableRangeList Data × ℕ × ℕ :=
  if rightRangeIndex = 0 then
    (ranges.set 0 ⟨range, ranges.length⟩ ++ ranges.take 1, 0, ranges.length)
  else
    ((ranges ++ [MutableRange.mk range rightRangeIndex]).modify leftRangeIndex
      (setNextRangeIndex ranges.length), ranges.length, rightRangeIndex)

def initializeFrom (converter : DataConverter Data Other) (others : List (Range Other)) :
    MutableRangeList Data :=
  (others.mapIdx fun index other =>
    ⟨⟨other.first, other.last, converter.convert other.data⟩, index + 1⟩).modify
      (others.length - 1) (setNextRangeIndex 0)

end MutableRangeList

structure ExtendState (Data Other : Type*) where
  ranges : MutableRangeList Data
  lastSelfRangeIndex : ℕ
  selfRangeIndex : ℕ
  reachedSelfEnd : Bool
  others : List (Range Other)
  otherRangeOffset : ℕ

namespace ExtendState

def moveForward (s : ExtendState Data Other) (active : MutableRange Data) : ExtendState Data Other :=
  { s with
    lastSelfRangeIndex := s.selfRangeIndex
    selfRangeIndex := active.nextRangeIndex
    reachedSelfEnd := active.nextRangeIndex = 0 }

def nextOther (s : ExtendState Data Other) : ExtendState Data Other :=
  { s with others := s.others.tail, otherRangeOffset := 0 }

def insertBefore (s : ExtendState Data Other) (range : Range Data) : ExtendState Data Other :=
  let result := s.ranges.insertBetween s.lastSelfRangeIndex s.selfRangeIndex range
  { s with ranges := result.1, lastSelfRangeIndex := result.2.1, selfRangeIndex := result.2.2 }

def modifyActive (s : ExtendState Data Other) (f : Range Data → Range Data) :
    ExtendState Data Other :=
  { s with ranges := s.ranges.modify s.selfRangeIndex fun range => { range with toRange := f range.toRange } }

variable (converter : DataConverter Data Other)

def alignStarts (s : ExtendState Data Other) (active : MutableRange Data) (other : Range Other) :
    ExtendState Data Other :=
  let otherFirst := other.first + s.otherRangeOffset
  if active.first < otherFirst then
    (s.modifyActive fun range => { range with first := otherFirst }).insertBefore
      ⟨active.first, otherFirst - 1, active.data⟩
  else if otherFirst < active.first then
    { s.insertBefore ⟨otherFirst, active.first - 1, converter.convert other.data⟩ with
      otherRangeOffset := active.first - other.first }
  else s

def mergeHeads (s : ExtendState Data Other) (active : MutableRange Data) (other : Range Other) :
    ExtendState Data Other :=
  let data := converter.extend active.data other.data
  if active.last = other.last then
    ((s.modifyActive fun range => { range with data }).moveForward active).nextOther
  else if other.last < active.last then
    ((s.modifyActive fun range => { range with first := other.last + 1 }).insertBefore
      ⟨active.first, other.last, data⟩).nextOther
  else
    { (s.modifyActive fun range => { range with data }).moveForward active with
      otherRangeOffset := active.last - other.first + 1 }

def step (s : ExtendState Data Other) : Option (ExtendState Data Other) :=
  match s.ranges[s.selfRangeIndex]?, s.others with
  | some active, other :: _ =>
    let otherFirst := other.first + s.otherRangeOffset
    if active.last < otherFirst then some (s.moveForward active)
    else if other.last < active.first then
      some (s.insertBefore ⟨otherFirst, other.last, converter.convert other.data⟩).nextOther
    else
      let aligned := s.alignStarts converter active other
      aligned.ranges[aligned.selfRangeIndex]?.map fun active => aligned.mergeHeads converter active other
  | _, _ => none

def loop : ℕ → ExtendState Data Other → Option (ExtendState Data Other)
  | 0, _ => none
  | fuel + 1, s =>
    if s.reachedSelfEnd = true ∨ s.others = [] then some s
    else (s.step converter).bind (loop fuel)

def appendRest (s : ExtendState Data Other) : MutableRangeList Data :=
  match s.others with
  | [] => s.ranges
  | other :: others =>
    (others.foldl (fun result other => result.1.appendRange result.2
        ⟨other.first, other.last, converter.convert other.data⟩)
      (s.ranges.appendRange s.lastSelfRangeIndex
        ⟨other.first + s.otherRangeOffset, other.last, converter.convert other.data⟩)).1

end ExtendState

/-- Extend a list by the ranges of another one. Every pass of the loop uses up a range of one of the
lists, which bounds the number of passes. -/
def MutableRangeList.extend (converter : DataConverter Data Other) (ranges : MutableRangeList Data)
    (others : List (Range Other)) : Option (MutableRangeList Data) :=
  if others = [] then some ranges
  else if ranges = [] then some (initializeFrom converter others)
  else
    (ExtendState.loop converter (ranges.length + others.length + 1)
      ⟨ranges, 0, 0, false, others, 0⟩).map (ExtendState.appendRest converter)

namespace MutableRangeList

def firstIndex (stop : ℕ) : List (ℕ × Range Data) → ℕ
  | [] => stop
  | entry :: _ => entry.1

def Linked (ranges : MutableRangeList Data) (stop : ℕ) : List (ℕ × Range Data) → Prop
  | [] => True
  | entry :: rest => ranges[entry.1]? = some ⟨entry.2, firstIndex stop rest⟩ ∧ Linked ranges stop rest

structure Represents (ranges : MutableRangeList Data) (chain : List (ℕ × Range Data)) : Prop where
  linked : ranges.Linked 0 chain
  perm : (chain.map fst).Perm (range ranges.length)
  first : firstIndex 0 chain = 0

variable {ranges ranges' : MutableRangeList Data} {stop : ℕ} {chain rest : List (ℕ × Range Data)}

theorem firstIndex_append : firstIndex stop (chain ++ rest) = firstIndex (firstIndex stop rest) chain := by
  cases chain <;> rfl

theorem linked_append : ranges.Linked stop (chain ++ rest) ↔
    ranges.Linked (firstIndex stop rest) chain ∧ ranges.Linked stop rest := by
  induction chain with
  | nil => exact (and_iff_right trivial).symm
  | cons entry chain ih =>
    rw [cons_append, Linked, Linked, firstIndex_append, ih, and_assoc]

/-- A chain stays linked when the ranges at its indices do not change. -/
theorem Linked.congr (h : ranges.Linked stop chain)
    (hsame : ∀ index ∈ chain.map fst, ranges'[index]? = ranges[index]?) :
    ranges'.Linked stop chain := by
  induction chain with
  | nil => exact trivial
  | cons entry chain ih =>
    obtain ⟨hent, hchain⟩ := h
    rw [map_cons] at hsame
    exact ⟨(hsame entry.1 mem_cons_self).trans hent,
      ih hchain fun index hmem => hsame index (mem_cons_of_mem _ hmem)⟩

theorem Represents.nodup (h : ranges.Represents chain) : (chain.map fst).Nodup :=
  h.perm.nodup_iff.mpr nodup_range

theorem Represents.lt_length (h : ranges.Represents chain) {index : ℕ}
    (hmem : index ∈ chain.map fst) : index < ranges.length :=
  mem_range.mp (h.perm.mem_iff.mp hmem)

variable {entry : ℕ × Range Data}

/-- The entries of a chain have different indices. -/
theorem Represents.ne_of_mem (h : ranges.Represents (chain ++ entry :: rest)) {index : ℕ}
    (hmem : index ∈ chain.map fst ∨ index ∈ rest.map fst) : index ≠ entry.1 := by
  have hnodup := h.nodup
  rw [map_append, map_cons, nodup_middle, nodup_cons, mem_append] at hnodup
  exact fun heq => hnodup.1 (heq ▸ hmem)

/-- Only the first entry of a chain has index 0. -/
theorem Represents.ne_zero (h : ranges.Represents (chain ++ rest)) (hne : chain ≠ []) {index : ℕ}
    (hmem : index ∈ rest.map fst) : index ≠ 0 := by
  obtain ⟨entry, chain, rfl⟩ := exists_cons_of_ne_nil hne
  have hfst : entry.1 = 0 := h.first
  have hrep : ranges.Represents ([] ++ entry :: (chain ++ rest)) := h
  exact hfst ▸ hrep.ne_of_mem (.inr (map_append .. ▸ mem_append_right _ hmem))

/-- Store a range at the end and link it in after an entry of the chain. -/
theorem Represents.insertAfter (h : ranges.Represents (chain ++ entry :: rest)) (range : Range Data) :
    Represents ((ranges ++ [MutableRange.mk range (firstIndex 0 rest)]).modify entry.1
      (setNextRangeIndex ranges.length)) (chain ++ entry :: (ranges.length, range) :: rest) := by
  obtain ⟨hchain, hent, hrest⟩ := linked_append.mp h.linked
  have hlt : ∀ index ∈ (chain ++ entry :: rest).map fst, index < ranges.length :=
    fun index hmem => h.lt_length hmem
  rw [map_append, map_cons] at hlt
  have hentryLt : entry.1 < ranges.length := hlt _ (mem_append_right _ mem_cons_self)
  have hoth : ∀ index < ranges.length, index ≠ entry.1 →
      ((ranges ++ [MutableRange.mk range (firstIndex 0 rest)]).modify entry.1
        (setNextRangeIndex ranges.length))[index]? = ranges[index]? := by
    intro index hidx hne
    rw [getElem?_modify_ne _ _ hne.symm, getElem?_append_left hidx]
  refine ⟨linked_append.mpr ⟨?_, ?_, ?_, ?_⟩, ?_, ?_⟩
  · exact hchain.congr fun index hmem => hoth index (hlt _ (mem_append_left _ hmem))
      (h.ne_of_mem (.inl hmem))
  · rw [getElem?_modify_eq, getElem?_append_left hentryLt, hent]
    rfl
  · rw [getElem?_modify_ne _ _ (Nat.ne_of_lt hentryLt), getElem?_append_right le_rfl, Nat.sub_self]
    rfl
  · exact hrest.congr fun index hmem => hoth index
      (hlt _ (mem_append_right _ (mem_cons_of_mem _ hmem))) (h.ne_of_mem (.inr hmem))
  · rw [length_modify, length_append, length_singleton, range_succ]
    have hperm := h.perm
    simp only [map_append, map_cons] at hperm ⊢
    refine List.Perm.trans ?_ (hperm.append_right [ranges.length])
    rw [append_assoc]
    refine List.Perm.append_left _ (List.Perm.cons _ ?_)
    exact (perm_append_singleton _ _).symm
  · have hfst := h.first
    rw [firstIndex_append] at hfst ⊢
    exact hfst

/-- Store the first range at the end and put another one in its place. -/
theorem Represents.insertFirst (h : ranges.Represents (entry :: rest)) (range : Range Data) :
    Represents (ranges.set 0 ⟨range, ranges.length⟩ ++ ranges.take 1)
      ((0, range) :: (ranges.length, entry.2) :: rest) := by
  obtain ⟨hent, hrest⟩ := h.linked
  have hfst : entry.1 = 0 := h.first
  have hrep : ranges.Represents ([entry] ++ rest) := h
  have hperm := h.perm
  have hlt : ∀ index ∈ (entry :: rest).map fst, index < ranges.length :=
    fun index hmem => h.lt_length hmem
  rw [map_cons, hfst] at hperm hlt
  rw [hfst] at hent
  have hpos : 0 < ranges.length := hlt 0 mem_cons_self
  refine ⟨⟨?_, ?_, ?_⟩, ?_, rfl⟩
  · rw [getElem?_append_left (by simpa using hpos), getElem?_set_self hpos]
    rfl
  · rw [getElem?_append_right (by simp), length_set, Nat.sub_self]
    rw [getElem?_take_of_lt Nat.zero_lt_one, hent]
  · refine Linked.congr hrest fun index hmem => ?_
    have hidx := hlt index (mem_cons_of_mem _ hmem)
    have hne := hrep.ne_zero (cons_ne_nil _ _) hmem
    rw [getElem?_append_left (by simpa using hidx), getElem?_set_ne hne.symm]
  · rw [length_append, length_set, length_take, min_eq_left hpos, range_succ]
    refine List.Perm.trans ?_ (hperm.append_right [ranges.length])
    exact List.Perm.cons _ (perm_append_singleton _ _).symm

/-- Change the range of an entry of the chain. -/
theorem Represents.modify (h : ranges.Represents (chain ++ entry :: rest))
    (f : Range Data → Range Data) :
    Represents (ranges.modify entry.1 fun range => { range with toRange := f range.toRange })
      (chain ++ (entry.1, f entry.2) :: rest) := by
  obtain ⟨hchain, hent, hrest⟩ := linked_append.mp h.linked
  refine ⟨linked_append.mpr ⟨?_, ?_, ?_⟩, ?_, ?_⟩
  · exact hchain.congr fun index hmem => getElem?_modify_ne _ _ (h.ne_of_mem (.inl hmem)).symm
  · rw [getElem?_modify_eq, hent]
    rfl
  · exact hrest.congr fun index hmem => getElem?_modify_ne _ _ (h.ne_of_mem (.inr hmem)).symm
  · have hperm := h.perm
    rw [map_append, map_cons] at hperm ⊢
    rw [length_modify]
    exact hperm
  · have hfst := h.first
    rw [firstIndex_append] at hfst ⊢
    exact hfst

end MutableRangeList

namespace ExtendState

open MutableRangeList

structure Position (s : ExtendState Data Other) (before after : List (ℕ × Range Data)) : Prop where
  represents : s.ranges.Represents (before ++ after)
  last : ∀ entry ∈ before.getLast?, entry.1 = s.lastSelfRangeIndex
  self : firstIndex 0 after = s.selfRangeIndex
  ended : s.reachedSelfEnd = true ↔ after = []
  nonempty : before ++ after ≠ []

variable {s : ExtendState Data Other} {before after : List (ℕ × Range Data)}
  {entry : ℕ × Range Data}

section

variable (h : s.Position before (entry :: after))

include h

theorem Position.active : s.ranges[s.selfRangeIndex]? = some ⟨entry.2, firstIndex 0 after⟩ := by
  rw [← h.self]
  exact (linked_append.mp h.represents.linked).2.1

theorem Position.moveForward (active : MutableRange Data)
    (hactive : active.nextRangeIndex = firstIndex 0 after) :
    (s.moveForward active).Position (before ++ [entry]) after := by
  have hrep : s.ranges.Represents ((before ++ [entry]) ++ after) := by
    rw [append_assoc]
    exact h.represents
  refine ⟨hrep, ?_, hactive.symm, ?_, by simp⟩
  · intro last hlast
    rw [getLast?_concat] at hlast
    rw [← Option.some.inj hlast]
    exact h.self
  · show decide (active.nextRangeIndex = 0) = true ↔ _
    rw [decide_eq_true_eq, hactive]
    cases after with
    | nil => exact iff_of_true rfl rfl
    | cons next after =>
      refine iff_of_false ?_ (cons_ne_nil _ _)
      exact hrep.ne_zero (append_ne_nil_of_right_ne_nil _ (cons_ne_nil _ _))
        mem_cons_self

theorem Position.modifyActive (f : Range Data → Range Data) :
    (s.modifyActive f).Position before ((entry.1, f entry.2) :: after) := by
  have hself : entry.1 = s.selfRangeIndex := h.self
  refine ⟨?_, h.last, h.self, ?_, by simp⟩
  · rw [ExtendState.modifyActive, ← hself]
    exact h.represents.modify f
  · refine h.ended.trans (iff_of_false (cons_ne_nil _ _) (cons_ne_nil _ _))

/-- Inserting a range before the active one leaves the loop at the active one, wherever that is
stored then. -/
theorem Position.insertBefore (range : Range Data) :
    ∃ before' entry', before'.map snd = before.map snd ++ [range] ∧ entry'.2 = entry.2 ∧
      (s.insertBefore range).Position before' (entry' :: after) := by
  have hself : entry.1 = s.selfRangeIndex := h.self
  have hended : ¬ s.reachedSelfEnd := fun hend => cons_ne_nil _ _ (h.ended.mp hend)
  cases hbefore : before.getLast? with
  | none =>
    obtain rfl := getLast?_eq_none_iff.mp hbefore
    have hzero : s.selfRangeIndex = 0 := hself.symm.trans h.represents.first
    refine ⟨[(0, range)], (s.ranges.length, entry.2), rfl, rfl, ?_⟩
    unfold ExtendState.insertBefore insertBetween
    rw [if_pos hzero]
    refine ⟨h.represents.insertFirst range, ?_, rfl, ?_, by simp⟩
    · intro last hlast
      rw [← Option.some.inj hlast]
      rfl
    · exact iff_of_false hended (cons_ne_nil _ _)
  | some last =>
    obtain ⟨init, rfl⟩ := getLast?_eq_some_iff.mp hbefore
    have hne : s.selfRangeIndex ≠ 0 := hself ▸ h.represents.ne_zero
      (append_ne_nil_of_right_ne_nil _ (cons_ne_nil _ _)) mem_cons_self
    have hlast : last.1 = s.lastSelfRangeIndex := h.last last hbefore
    refine ⟨init ++ [last] ++ [(s.ranges.length, range)], entry, ?_, rfl, ?_⟩
    · simp only [map_append, map_cons, map_nil]
    unfold ExtendState.insertBefore insertBetween
    rw [if_neg hne]
    have hrep := h.represents
    rw [append_assoc, singleton_append] at hrep
    have hinsert := hrep.insertAfter range
    refine ⟨?_, ?_, hself, ?_, by simp⟩
    · simp only [append_assoc, singleton_append]
      rw [← hlast, ← hself]
      exact hinsert
    · intro last' hlast'
      rw [getLast?_concat] at hlast'
      rw [← Option.some.inj hlast']
    · exact iff_of_false hended (cons_ne_nil _ _)

end

def remaining (s : ExtendState Data Other) : List (Range Other) :=
  match s.others with
  | [] => []
  | other :: others => { other with first := other.first + s.otherRangeOffset } :: others

theorem remaining_eq {other : Range Other} (h : s.others = other :: others) :
    s.remaining = { other with first := other.first + s.otherRangeOffset } :: others := by
  rw [remaining, h]

theorem remaining_nextOther {other : Range Other}
    (h : s.others = other :: others) : s.nextOther.remaining = others := by
  have hoths : s.nextOther.others = others := by rw [nextOther, h, tail_cons]
  cases others with
  | nil => rw [remaining, hoths]
  | cons next others =>
    rw [remaining_eq hoths]
    rfl

variable (converter : DataConverter Data Other) {other : Range Other} {others : List (Range Other)}

/-- Two colliding ranges start together once the part before is cut off. -/
theorem Position.alignStarts (h : s.Position before (entry :: after)) (hoths : s.others = other :: others)
    (active : MutableRange Data) (hactive : active.toRange = entry.2) :
    ∃ before' entry', (s.alignStarts converter active other).Position before' (entry' :: after) ∧
      (s.alignStarts converter active other).others = other :: others ∧
      before'.map snd = before.map snd ++ overhang converter.convert entry.2
        { other with first := other.first + s.otherRangeOffset } ∧
      entry'.2 = { entry.2 with first := max entry.2.first (other.first + s.otherRangeOffset) } ∧
      other.first + (s.alignStarts converter active other).otherRangeOffset = entry'.2.first := by
  unfold ExtendState.alignStarts overhang
  dsimp only
  rw [hactive]
  split_ifs with hlt hlt'
  · obtain ⟨before', entry', hbefore, hent, hposn⟩ :=
      (h.modifyActive fun range => { range with first := other.first + s.otherRangeOffset }).insertBefore
        ⟨entry.2.first, other.first + s.otherRangeOffset - 1, entry.2.data⟩
    refine ⟨before', entry', hposn, hoths, hbefore, ?_, ?_⟩
    · rw [hent, max_eq_right hlt.le]
    · rw [hent]
      rfl
  · obtain ⟨before', entry', hbefore, hent, hposn⟩ := h.insertBefore
      ⟨other.first + s.otherRangeOffset, entry.2.first - 1, converter.convert other.data⟩
    refine ⟨before', entry', { hposn with }, hoths, hbefore, ?_, ?_⟩
    · rw [hent, max_eq_left hlt'.le]
    · rw [hent]
      dsimp only
      omega
  · have heq : entry.2.first = other.first + s.otherRangeOffset := by omega
    refine ⟨before, entry, h, hoths, ?_, ?_, heq.symm⟩
    · rw [append_nil]
    · rw [max_eq_left heq.ge]

theorem Position.nextOther (h : s.Position before after) : s.nextOther.Position before after :=
  { h with }

/-- Two ranges that start together are merged up to where the first of them ends. -/
theorem Position.mergeHeads (h : s.Position before (entry :: after)) (hoths : s.others = other :: others)
    (hstart : other.first + s.otherRangeOffset = entry.2.first) (hne : entry.2.first ≤ entry.2.last)
    (active : MutableRange Data) (hactive : active = ⟨entry.2, firstIndex 0 after⟩) :
    ∃ before' after', (s.mergeHeads converter active other).Position before' after' ∧
      before'.map snd = before.map snd ++
        [⟨entry.2.first, min entry.2.last other.last, converter.extend entry.2.data other.data⟩] ∧
      after'.map snd = past (min entry.2.last other.last) entry.2 (after.map snd) ∧
      (s.mergeHeads converter active other).remaining =
        past (min entry.2.last other.last) other others := by
  subst hactive
  have hforward := (h.modifyActive fun range =>
    { range with data := converter.extend entry.2.data other.data }).moveForward
      ⟨entry.2, firstIndex 0 after⟩ rfl
  unfold ExtendState.mergeHeads
  rcases Nat.lt_trichotomy entry.2.last other.last with hlt | heq | hlt
  · rw [if_neg hlt.ne, if_neg hlt.asymm, min_eq_left hlt.le, past_of_le le_rfl]
    refine ⟨_, after, { hforward with }, map_append .., rfl, ?_⟩
    simp only [remaining, ExtendState.moveForward, ExtendState.modifyActive, hoths, past]
    rw [if_neg (Nat.not_le.mpr hlt)]
    congr 2
    omega
  · rw [if_pos heq, ← heq, min_self, past_of_le le_rfl]
    refine ⟨_, after, hforward.nextOther, map_append .., rfl, ?_⟩
    exact (remaining_nextOther hoths).trans (past_of_le heq.ge _).symm
  · rw [if_neg hlt.ne', if_pos hlt, min_eq_right hlt.le, past_of_lt hlt]
    obtain ⟨before', entry', hbefore, hent, hposn⟩ := (h.modifyActive fun range =>
      { range with first := other.last + 1 }).insertBefore
        ⟨entry.2.first, other.last, converter.extend entry.2.data other.data⟩
    refine ⟨before', entry' :: after, hposn.nextOther, hbefore, ?_, ?_⟩
    · rw [map_cons, hent]
    · exact (remaining_nextOther hoths).trans (past_of_le le_rfl _).symm

/-- One pass of the loop keeps what the merge of the rest gives, and uses up a range. -/
theorem Position.step (h : s.Position before (entry :: after)) (hoths : s.others = other :: others)
    (hsort : ∀ range ∈ (entry :: after).map snd, range.first ≤ range.last) :
    ∃ s' before' after', s.step converter = some s' ∧ s'.Position before' after' ∧
      before'.map snd ++ merge converter.convert converter.extend (after'.map snd) s'.remaining =
        before.map snd ++ merge converter.convert converter.extend
          ((entry :: after).map snd) s.remaining ∧
      after'.length + s'.remaining.length < after.length + 1 + s.remaining.length ∧
      ∀ range ∈ after'.map snd, range.first ≤ range.last := by
  have hactive := h.active
  rw [map_cons, forall_mem_cons] at hsort
  obtain ⟨hfst, hrest⟩ := hsort
  unfold ExtendState.step
  simp only [hactive, hoths, remaining_eq hoths, map_cons, merge]
  split_ifs with hlt hlt'
  · have hrem : (s.moveForward ⟨entry.2, firstIndex 0 after⟩).remaining = s.remaining := rfl
    refine ⟨_, _, after, rfl, h.moveForward _ rfl, ?_, ?_, hrest⟩
    · rw [hrem, remaining_eq hoths, map_append, append_assoc]
      rfl
    · rw [hrem, remaining_eq hoths]
      omega
  · obtain ⟨before', entry', hbefore, hent, hposn⟩ := h.insertBefore
      ⟨other.first + s.otherRangeOffset, other.last, converter.convert other.data⟩
    have hnext : (s.insertBefore ⟨other.first + s.otherRangeOffset, other.last,
        converter.convert other.data⟩).nextOther.remaining = others := remaining_nextOther hoths
    refine ⟨_, before', entry' :: after, rfl, hposn.nextOther, ?_, ?_, ?_⟩
    · rw [hnext, hbefore, append_assoc, map_cons, hent]
      rfl
    · rw [hnext, length_cons, length_cons]
      omega
    · rw [map_cons, forall_mem_cons, hent]
      exact ⟨hfst, hrest⟩
  · obtain ⟨before', entry', halign, hoths', hbefore, hent, hstart⟩ :=
      h.alignStarts converter hoths ⟨entry.2, firstIndex 0 after⟩ rfl
    have hlast : entry'.2.last = entry.2.last := by rw [hent]
    have hdata : entry'.2.data = entry.2.data := by rw [hent]
    obtain ⟨before'', after', hposn, hbefore', hafter, hrem⟩ :=
      halign.mergeHeads converter hoths' hstart (by rw [hent]; dsimp only; omega) _ rfl
    have hafter' : after'.map snd = past (min entry.2.last other.last) entry.2 (after.map snd) := by
      rw [hafter, hlast, hent]
      rfl
    rw [hlast] at hrem
    refine ⟨_, before'', after', ?_, hposn, ?_, ?_, ?_⟩
    · rw [halign.active, Option.map_some]
    · rw [hbefore', hbefore, hafter', hrem, hlast, hdata, hent, append_assoc, append_assoc]
      rfl
    · have hlen : after'.length = (after'.map snd).length := (length_map _).symm
      rw [hlen, hafter', hrem, length_cons]
      have hle := length_past_le (min entry.2.last other.last) entry.2 (after.map snd)
      have hle' := length_past_le (min entry.2.last other.last) other others
      rw [length_map] at hle
      rcases le_total entry.2.last other.last with hmin | hmin
      · rw [min_eq_left hmin, past_of_le le_rfl, length_map]
        rw [min_eq_left hmin] at hle'
        omega
      · rw [min_eq_right hmin, past_of_le le_rfl others]
        rw [min_eq_right hmin] at hle
        omega
    · rw [hafter']
      unfold past
      split_ifs with hle
      · exact hrest
      · exact forall_mem_cons.mpr ⟨Nat.not_le.mp hle, hrest⟩

theorem remaining_eq_nil_iff : s.remaining = [] ↔ s.others = [] := by
  unfold remaining
  split
  · exact iff_of_true rfl ‹_›
  · rename_i hoths
    rw [hoths]
    exact iff_of_false (cons_ne_nil _ _) (cons_ne_nil _ _)

/-- The loop ends, with what is left to append. -/
theorem Position.loop (fuel : ℕ) (h : s.Position before after)
    (hfuel : after.length + s.remaining.length < fuel)
    (hne : ∀ range ∈ after.map snd, range.first ≤ range.last) :
    ∃ s' before' after', ExtendState.loop converter fuel s = some s' ∧ s'.Position before' after' ∧
      (after' = [] ∨ s'.others = []) ∧
      before'.map snd ++ merge converter.convert converter.extend (after'.map snd) s'.remaining =
        before.map snd ++ merge converter.convert converter.extend (after.map snd)
          s.remaining := by
  induction fuel generalizing s before after with
  | zero => omega
  | succ fuel ih =>
    unfold ExtendState.loop
    split_ifs with hend
    · exact ⟨s, before, after, rfl, h, hend.imp_left h.ended.mp, rfl⟩
    · push Not at hend
      obtain ⟨hended, hoths⟩ := hend
      obtain ⟨entry, after, rfl⟩ := exists_cons_of_ne_nil fun hnil => hended (h.ended.mpr hnil)
      obtain ⟨other, others, hoths⟩ := exists_cons_of_ne_nil hoths
      obtain ⟨s₁, before₁, after₁, hstep, hposn, hmerge, hless, hnonempty₁⟩ :=
        h.step converter hoths hne
      rw [length_cons] at hfuel
      obtain ⟨s', before', after', hloop, hposn', hend, hmerge'⟩ :=
        ih hposn (by omega) hnonempty₁
      refine ⟨s', before', after', ?_, hposn', hend, hmerge'.trans hmerge⟩
      rw [hstep, Option.bind_some, hloop]

end ExtendState

namespace MutableRangeList

variable {ranges : MutableRangeList Data} {chain : List (ℕ × Range Data)}

/-- A range appended to a nonempty list. -/
theorem Represents.appendRange {entry : ℕ × Range Data} (h : ranges.Represents (chain ++ [entry]))
    (range : Range Data) :
    (ranges.appendRange entry.1 range).1.Represents (chain ++ [entry] ++ [(ranges.length, range)]) ∧
      (ranges.appendRange entry.1 range).2 = ranges.length := by
  have hlt : entry.1 < ranges.length := h.lt_length (by simp)
  have hne : ranges.length ≠ 0 := by omega
  unfold MutableRangeList.appendRange
  rw [if_neg hne]
  refine ⟨?_, rfl⟩
  rw [append_assoc]
  exact h.insertAfter range

/-- Appending ranges one after the other. -/
theorem Represents.foldl_appendRange {entry : ℕ × Range Data} (h : ranges.Represents (chain ++ [entry]))
    (added : List (Range Data)) :
    ∃ chain', (added.foldl (fun result range => result.1.appendRange result.2 range)
        (ranges, entry.1)).1.Represents chain' ∧
      chain'.map snd = (chain ++ [entry]).map snd ++ added := by
  induction added generalizing ranges chain entry with
  | nil => exact ⟨_, h, (append_nil _).symm⟩
  | cons range added ih =>
    obtain ⟨hrep, hidx⟩ := h.appendRange range
    obtain ⟨chain', hchain', hmap⟩ := ih hrep
    refine ⟨chain', ?_, ?_⟩
    · rw [foldl_cons]
      rw [← hidx] at hchain'
      exact hchain'
    · rw [hmap, map_append, append_assoc]
      rfl

end MutableRangeList

namespace ExtendState

open MutableRangeList

variable {s : ExtendState Data Other} {before after : List (ℕ × Range Data)}
  (converter : DataConverter Data Other)

theorem appendRest_eq : s.appendRest converter =
    ((s.remaining.map fun other => ⟨other.first, other.last, converter.convert other.data⟩).foldl
      (fun result range => result.1.appendRange result.2 range) (s.ranges, s.lastSelfRangeIndex)).1 := by
  unfold ExtendState.appendRest remaining
  cases s.others with
  | nil => rfl
  | cons other others =>
    rw [map_cons, foldl_cons, foldl_map]

/-- What is left of the other list is appended. -/
theorem Position.appendRest (h : s.Position before after) (hend : after = [] ∨ s.others = []) :
    ∃ chain, (s.appendRest converter).Represents chain ∧ chain.map snd = before.map snd ++
        merge converter.convert converter.extend (after.map snd) s.remaining := by
  rw [appendRest_eq]
  rcases hend with rfl | hoths
  · obtain ⟨init, last, rfl⟩ := (eq_nil_or_concat' before).resolve_left
      (append_nil before ▸ h.nonempty)
    have hlast : last.1 = s.lastSelfRangeIndex := h.last last (getLast?_concat ..)
    have hrep := h.represents
    rw [append_nil] at hrep
    obtain ⟨chain, hchain, hmap⟩ := hrep.foldl_appendRange
      (s.remaining.map fun other => ⟨other.first, other.last, converter.convert other.data⟩)
    rw [hlast] at hchain
    exact ⟨chain, hchain, by rw [hmap, map_nil, merge_nil_left]⟩
  · rw [remaining_eq_nil_iff.mpr hoths, merge, ← map_append]
    exact ⟨before ++ after, h.represents, rfl⟩

end ExtendState

namespace MutableRangeList

variable {ranges : MutableRangeList Data} {chain : List (ℕ × Range Data)}
  (converter : DataConverter Data Other)

omit converter in
theorem walk_eq {fuel : ℕ} (hlinked : ranges.Linked 0 chain)
    (hne : ∀ index ∈ chain.tail.map fst, index ≠ 0) (hnil : chain ≠ [])
    (hfuel : chain.length ≤ fuel) : ranges.walk fuel (firstIndex 0 chain) = chain.map snd := by
  induction chain generalizing fuel with
  | nil => exact absurd rfl hnil
  | cons entry rest ih =>
    obtain ⟨hent, hrest⟩ := hlinked
    obtain ⟨fuel, rfl⟩ := Nat.exists_eq_add_of_lt (Nat.lt_of_lt_of_le (Nat.succ_pos _) hfuel)
    simp only [zero_add, walk, firstIndex, hent, map_cons, cons.injEq, true_and]
    cases rest with
    | nil => rfl
    | cons next rest =>
      have hnext : next.1 ≠ 0 := hne next.1 mem_cons_self
      rw [if_neg hnext]
      exact ih hrest (fun index hmem => hne index (mem_cons_of_mem _ hmem)) (cons_ne_nil _ _)
        (by simpa using hfuel)

omit converter in
theorem Represents.length_eq (h : ranges.Represents chain) : chain.length = ranges.length := by
  have hlen := h.perm.length_eq
  rwa [length_map, length_range] at hlen

omit converter in
/-- Walking along the links hands out the chain. -/
theorem Represents.toList_eq (h : ranges.Represents chain) : ranges.toList = chain.map snd := by
  have hlen := h.length_eq
  cases chain with
  | nil =>
    rw [toList, ← hlen]
    rfl
  | cons entry rest =>
    have hfst : entry.1 = 0 := h.first
    refine Eq.trans ?_ (walk_eq h.linked (fun index hmem => ?_) (cons_ne_nil _ _) hlen.le)
    · rw [toList, firstIndex, hfst]
    · have happ : ranges.Represents ([entry] ++ rest) := h
      exact happ.ne_zero (cons_ne_nil _ _) hmem

omit converter in
theorem linked_of_getElem? {stop : ℕ} (h : ∀ (k : ℕ) entry, chain[k]? = some entry →
    ranges[entry.1]? = some ⟨entry.2, (chain[k + 1]?.map fst).getD stop⟩) :
    ranges.Linked stop chain := by
  induction chain with
  | nil => exact trivial
  | cons entry rest ih =>
    refine ⟨?_, ih fun k next hnext => h (k + 1) next hnext⟩
    rw [h 0 entry rfl]
    cases rest <;> rfl

theorem represents_initializeFrom (others : List (Range Other)) :
    ∃ chain, (initializeFrom converter others).Represents chain ∧ chain.map snd =
      others.map fun other => ⟨other.first, other.last, converter.convert other.data⟩ := by
  refine ⟨others.mapIdx fun index other =>
    (index, ⟨other.first, other.last, converter.convert other.data⟩), ⟨?_, ?_, ?_⟩, ?_⟩
  · apply linked_of_getElem?
    intro k entry hent
    rw [getElem?_mapIdx, Option.map_eq_some_iff] at hent
    obtain ⟨other, hoth, rfl⟩ := hent
    have hlt := (List.getElem?_eq_some_iff.mp hoth).1
    rw [initializeFrom, getElem?_modify, getElem?_mapIdx, hoth, getElem?_mapIdx]
    by_cases hlast : others.length - 1 = k
    · have hnone : others[k + 1]? = none := getElem?_eq_none (by omega)
      simp [hlast, hnone, setNextRangeIndex]
    · obtain ⟨next, hnext⟩ : ∃ next, others[k + 1]? = some next :=
        ⟨_, getElem?_eq_getElem (by omega)⟩
      simp [hlast, hnext]
  · rw [initializeFrom, length_modify, length_mapIdx]
    apply List.Perm.of_eq
    exact ext_getElem (by simp) (by simp)
  · cases others with
    | nil => rfl
    | cons other others =>
      rw [mapIdx_cons]
      rfl
  · exact ext_getElem (by simp) (by simp)

structure WellFormed (ranges : MutableRangeList Data) : Prop where
  represents : ∃ chain, ranges.Represents chain
  sorted : Sorted ranges.toList

/-- Extending a list ends, with the merge of the two lists. -/
theorem WellFormed.extend (h : ranges.WellFormed) (hoths : Sorted others) :
    ∃ ranges', ranges.extend converter others = some ranges' ∧ ranges'.WellFormed ∧
      ranges'.toList = merge converter.convert converter.extend ranges.toList others := by
  have hsort : Sorted (merge converter.convert converter.extend ranges.toList others) :=
    h.sorted.merge hoths
  obtain ⟨chain, hchain⟩ := h.represents
  have hlist := hchain.toList_eq
  suffices hex : ∃ ranges', ranges.extend converter others = some ranges' ∧
      ∃ chain', ranges'.Represents chain' ∧
        chain'.map snd = merge converter.convert converter.extend ranges.toList others by
    obtain ⟨ranges', hext, chain', hchain', hmap⟩ := hex
    have hlist' := hchain'.toList_eq.trans hmap
    exact ⟨ranges', hext, ⟨⟨chain', hchain'⟩, hlist' ▸ hsort⟩, hlist'⟩
  unfold MutableRangeList.extend
  split_ifs with hnil hempty
  · refine ⟨ranges, rfl, chain, hchain, ?_⟩
    rw [hnil, merge, hlist]
  · subst hempty
    obtain ⟨chain', hchain', hmap⟩ := represents_initializeFrom converter others
    exact ⟨_, rfl, chain', hchain', by rw [hmap, toList, length_nil, walk, merge_nil_left]⟩
  · have hne : chain ≠ [] := by
      rintro rfl
      exact hempty (length_eq_zero_iff.mp hchain.length_eq.symm)
    have hposn : (⟨ranges, 0, 0, false, others, 0⟩ : ExtendState Data Other).Position [] chain :=
      ⟨hchain, by simp, hchain.first, iff_of_false Bool.false_ne_true hne, hne⟩
    have hrem : (⟨ranges, 0, 0, false, others, 0⟩ : ExtendState Data Other).remaining = others := by
      cases others <;> rfl
    obtain ⟨s', before', after', hloop, hposn', hend, hmerge⟩ :=
      hposn.loop converter (ranges.length + others.length + 1)
        (by rw [hrem, hchain.length_eq]; exact Nat.lt_succ_self _) (hlist ▸ h.sorted.nonempty)
    obtain ⟨chain', hchain', hmap⟩ := hposn'.appendRest converter hend
    refine ⟨_, by rw [hloop]; rfl, chain', hchain', ?_⟩
    rw [hmap, hmerge, hrem, hlist]
    rfl

omit converter in
/-- An empty list that is filled with sorted ranges is linked up. -/
theorem wellFormed_initializeFrom (converter : DataConverter Data Other)
    (hoths : Sorted others) : (initializeFrom converter others).WellFormed := by
  obtain ⟨chain, hchain, hmap⟩ := represents_initializeFrom converter others
  refine ⟨⟨chain, hchain⟩, ?_⟩
  rw [hchain.toList_eq, hmap]
  exact ⟨forall_mem_map.mpr hoths.nonempty, pairwise_map.mpr hoths.pairwise⟩

/-- Extending a list ends, and leaves a linked list that is pointwise the merge: the data of both lists
is combined where both cover a character. No character is covered that neither list covers. -/
theorem extend_is_pointwise_merge (h : ranges.WellFormed) {others : List (Range Other)}
    (hothers : Sorted others) :
    ∃ ranges', ranges.extend converter others = some ranges' ∧ ranges'.WellFormed ∧
      (∀ c, (∃ range ∈ ranges'.toList, range.Contains c) ↔
        (∃ range ∈ ranges.toList, range.Contains c) ∨ ∃ other ∈ others, other.Contains c) ∧
      ∀ c, lookup ranges'.toList c =
        match lookup ranges.toList c, lookup others c with
        | some data, some other => some (converter.extend data other)
        | none, some other => some (converter.convert other)
        | value, none => value := by
  obtain ⟨ranges', hext, hwf, hlist⟩ := h.extend converter hothers
  refine ⟨ranges', hext, hwf, fun c => ?_, fun c => ?_⟩
  · rw [hlist]
    exact exists_mem_merge_iff h.sorted hothers
  · rw [hlist, lookup_merge h.sorted hothers]
    cases lookup ranges.toList c <;> cases lookup others c <;> rfl

/-- The letters extended by a range that starts before them and ends among them. -/
theorem extend_letters_is_pointwise_merge :
    let converter : DataConverter (List ℕ) ℕ := ⟨fun target => [target], fun targets target =>
      targets ++ [target]⟩
    let letters := initializeFrom converter [⟨97, 122, 1⟩]
    ∃ ranges', letters.extend converter [⟨48, 109, 2⟩] = some ranges' ∧
      lookup ranges'.toList 48 = some [2] ∧ lookup ranges'.toList 97 = some [1, 2] ∧
      lookup ranges'.toList 122 = some [1] := by
  intro converter letters
  have hletters : letters.WellFormed :=
    wellFormed_initializeFrom converter (sorted_singleton 1 (by decide))
  have hoths : Sorted [⟨48, 109, 2⟩] := sorted_singleton 2 (by decide)
  obtain ⟨ranges', hext, -, -, hget⟩ := extend_is_pointwise_merge converter hletters hoths
  exact ⟨ranges', hext, hget 48, hget 97, hget 122⟩

end MutableRangeList

end WebKit.ContentExtensions
