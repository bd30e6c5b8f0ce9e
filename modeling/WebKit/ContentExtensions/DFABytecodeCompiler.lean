import WebKit.ContentExtensions.DFA

/-!
What the bytecode of a node checks a character against: ranges and jump tables, with or without
regard to case, made from the transitions of the node, and a target for all other characters.
The ranges are found by going through a table of all characters. Where a range of capital letters
leads to the same place as the small letters, those are taken out of the table and one check
covers both. Together the entries give every character its target, and no character two.
-/

namespace WebKit.ContentExtensions

open List RangeMaps
open Function (update update_apply)

def noDestination : ℕ := 2 ^ 32 - 1

namespace DFANode

def followsUpTo (lastSeenCharacter : ℕ) : List (Range ℕ) → Bool
  | [] => false
  | range :: rest =>
    if range.first ≠ lastSeenCharacter + 1 then false
    else if range.last = 127 then true
    else followsUpTo range.last rest

def canUseFallbackTransition (node : DFANode) : Bool :=
  match node.transitions with
  | [] => false
  | range :: rest =>
    if range.first = 0 then
      if range.last = 127 then true else followsUpTo range.last rest
    else followsUpTo 0 (range :: rest)

structure Scores where
  histogram : ℕ → ℕ
  bestTarget : ℕ
  bestTargetScore : ℕ

def Scores.add (s : Scores) (range : Range ℕ) : Scores :=
  let value := s.histogram range.data + (range.last - range.first + 1)
  let histogram := update s.histogram range.data value
  if value > s.bestTargetScore then ⟨histogram, range.data, value⟩ else { s with histogram }

/-- The target with the most characters but zero; a node with a fallback has such a target. -/
def bestFallbackTarget (node : DFANode) : ℕ :=
  match (match node.transitions with
    | ⟨0, 0, _⟩ :: rest => rest
    | ranges => ranges) with
  | [] => noDestination
  | range :: rest =>
    let size := range.last - range.first + 1
    let score := if range.first = 0 then size - 1 else size
    (rest.foldl Scores.add ⟨update (fun _ => 0) range.data score, range.data, score⟩).bestTarget

end DFANode

namespace DFABytecodeCompiler

def toASCIILower (c : ℕ) : ℕ := if 0x41 ≤ c ∧ c ≤ 0x5A then c + 0x20 else c

structure Range where
  min : ℕ
  max : ℕ
  destination : ℕ
  caseSensitive : Bool
  deriving Inhabited

structure JumpTable where
  min : ℕ
  max : ℕ
  caseSensitive : Bool
  destinations : List ℕ

structure Transitions where
  jumpTables : List JumpTable
  ranges : List Range
  useFallbackTransition : Bool
  fallbackTransitionTarget : ℕ

def compared (caseSensitive : Bool) (c : ℕ) : ℕ := if caseSensitive then c else toASCIILower c

def Range.on (range : Range) (c : ℕ) : Option ℕ :=
  if range.min ≤ compared range.caseSensitive c ∧ compared range.caseSensitive c ≤ range.max then
    some range.destination
  else none

def JumpTable.on (table : JumpTable) (c : ℕ) : Option ℕ :=
  if table.min ≤ compared table.caseSensitive c ∧ compared table.caseSensitive c ≤ table.max then
    some (table.destinations.getD (compared table.caseSensitive c - table.min) noDestination)
  else none

/-- The destinations that the entries have for a character. -/
def answers (jumpTables : List JumpTable) (ranges : List Range) (c : ℕ) : List ℕ :=
  jumpTables.filterMap (·.on c) ++ ranges.filterMap (·.on c)

section Table

def upTo (first last : ℕ) : List ℕ := range' first (last + 1 - first)

def setAll (characters : List ℕ) (value : ℕ) (destinations : ℕ → ℕ) : ℕ → ℕ :=
  characters.foldl (fun destinations c => update destinations c value) destinations

/-- The table of the destinations, without those that lead to the fallback target. -/
def destinations (useFallbackTransition : Bool) (fallbackTransitionTarget : ℕ)
    (transitions : List (RangeMaps.Range ℕ)) : (ℕ → ℕ) → ℕ → ℕ :=
  transitions.foldl fun destinations transition =>
    if useFallbackTransition ∧ fallbackTransitionTarget = transition.data then destinations
    else setAll (upTo transition.first transition.last) transition.data destinations

end Table

structure Scan where
  destinations : ℕ → ℕ
  ranges : List Range
  rangeMin : Option ℕ

namespace Scan

variable (s : Scan)

def commit (rangeMin rangeMax : ℕ) : Scan :=
  if 0x41 ≤ rangeMin ∧ rangeMax ≤ 0x5A ∧ ∀ c ∈ upTo rangeMin rangeMax,
      s.destinations rangeMin = s.destinations (toASCIILower c) then
    let destinations := setAll ((upTo rangeMin rangeMax).map toASCIILower) noDestination
      s.destinations
    { s with
      destinations
      ranges := s.ranges ++
        [⟨toASCIILower rangeMin, toASCIILower rangeMax, destinations rangeMin, false⟩] }
  else { s with ranges := s.ranges ++ [⟨rangeMin, rangeMax, s.destinations rangeMin, true⟩] }

def step (i : ℕ) : Scan :=
  match s.rangeMin with
  | some rangeMin =>
    if s.destinations i ≠ s.destinations rangeMin then
      let s := s.commit rangeMin (i - 1)
      { s with rangeMin := if s.destinations i = noDestination then none else some i }
    else s
  | none => if s.destinations i ≠ noDestination then { s with rangeMin := some i } else s

end Scan

def collectRanges (destinations : ℕ → ℕ) : List Range :=
  let s := (List.range 128).foldl Scan.step ⟨destinations, [], none⟩
  match s.rangeMin with
  | some rangeMin => s.ranges ++ [⟨rangeMin, 127, s.destinations rangeMin, true⟩]
  | none => s.ranges

def extractJumpTable (ranges : List Range) (firstRange lastRange : ℕ) : JumpTable × List Range :=
  let size := lastRange - firstRange + 1
  let last := ranges.getD lastRange default
  (⟨(ranges.getD firstRange default).min, last.max, last.caseSensitive,
    ((ranges.drop firstRange).take size).map Range.destination⟩,
    ranges.take firstRange ++ ranges.drop (firstRange + size))

/-- A range does not continue the jump table from the base range up to it. -/
abbrev Breaks (ranges : List Range) (base position : ℕ) : Prop :=
  let range := ranges.getD position default
  range.min ≠ range.max ∨ (ranges.getD base default).caseSensitive ≠ range.caseSensitive ∨
    (ranges.getD (position - 1) default).max + 1 ≠ range.min

/-- The state of the loop that finds jump tables; there is no base position where the base range is
null. -/
structure Extraction where
  ranges : List Range
  jumpTables : List JumpTable
  rangePosition : ℕ
  baseRangePosition : Option ℕ

namespace Extraction

variable (s : Extraction)

def extract (firstRange lastRange : ℕ) : Extraction :=
  let result := extractJumpTable s.ranges firstRange lastRange
  { s with ranges := result.2, jumpTables := s.jumpTables ++ [result.1] }

def step : Extraction :=
  let range := s.ranges.getD s.rangePosition default
  match s.baseRangePosition with
  | some base =>
    if Breaks s.ranges base s.rangePosition then
      if s.rangePosition - base > 1 then
        { s.extract base (s.rangePosition - 1) with
          rangePosition := base + 1
          baseRangePosition := none }
      else { s with rangePosition := s.rangePosition + 1, baseRangePosition := none }
    else { s with rangePosition := s.rangePosition + 1 }
  | none =>
    { s with
      rangePosition := s.rangePosition + 1
      baseRangePosition := if range.min = range.max then some s.rangePosition else none }

theorem length_step_lt (h : s.rangePosition < s.ranges.length) :
    s.step.ranges.length - s.step.rangePosition < s.ranges.length - s.rangePosition := by
  unfold step
  dsimp only
  split
  · split_ifs
    · simp only [extract, extractJumpTable, length_append, length_take, length_drop]
      omega
    · simp only
      omega
    · simp only
      omega
  · simp only
    omega

def run (s : Extraction) : Extraction :=
  if s.rangePosition < s.ranges.length then run s.step else s
termination_by s.ranges.length - s.rangePosition
decreasing_by exact length_step_lt s ‹_›

end Extraction

def collectJumpTables (ranges : List Range) : Extraction :=
  let s := Extraction.run ⟨ranges, [], 0, none⟩
  match s.baseRangePosition with
  | some base => if s.ranges.length - base > 1 then s.extract base (s.ranges.length - 1) else s
  | none => s

def transitions (node : DFANode) : Transitions :=
  let useFallbackTransition := node.canUseFallbackTransition
  let fallbackTransitionTarget :=
    if useFallbackTransition then node.bestFallbackTarget else noDestination
  let s := collectJumpTables (collectRanges (destinations useFallbackTransition
    fallbackTransitionTarget node.transitions fun _ => noDestination))
  ⟨s.jumpTables, s.ranges, useFallbackTransition, fallbackTransitionTarget⟩

section Table

variable {characters : List ℕ} {value c first last : ℕ} {d : ℕ → ℕ}

theorem setAll_apply :
    setAll characters value d c = if c ∈ characters then value else d c := by
  induction characters generalizing d with
  | nil => rfl
  | cons i rest ih =>
    refine ih.trans ?_
    by_cases hrest : c ∈ rest
    · rw [if_pos hrest, if_pos (mem_cons_of_mem _ hrest)]
    · simp [hrest, update_apply]

theorem mem_upTo : c ∈ upTo first last ↔ first ≤ c ∧ c ≤ last := by
  rw [upTo, mem_range'_1]
  omega

theorem destinations_eq {use : Bool} {fallback : ℕ} {transitions : List (RangeMaps.Range ℕ)}
    (h : Sorted transitions) : destinations use fallback transitions d c =
      ((lookup transitions c).filter fun target => ¬(use ∧ fallback = target)).getD (d c) := by
  induction transitions generalizing d with
  | nil => rfl
  | cons transition rest ih =>
    obtain ⟨-, hnext, hrest⟩ := sorted_cons.mp h
    rw [destinations, foldl_cons, ← destinations, ih hrest, lookup_cons]
    by_cases hcont : transition.Contains c
    · rw [if_pos hcont, lookup_of_lt fun next hmem => hcont.2.trans_lt (hnext next hmem)]
      by_cases hskip : use ∧ fallback = transition.data
      · simp [hskip, Option.filter]
      · simp [hskip, Option.filter, setAll_apply, mem_upTo, hcont]
    · rw [if_neg hcont]
      congr 1
      split_ifs
      · rfl
      · rw [setAll_apply, if_neg (mt mem_upTo.mp hcont)]

end Table

def remaining (d : ℕ → ℕ) (position c : ℕ) : List ℕ :=
  if position ≤ c ∧ d c ≠ noDestination then [d c] else []

namespace Scan

variable {s : Scan} {d : ℕ → ℕ} {i rangeMin c : ℕ}

/-- The ranges together with what is left of the table give every character its destination. -/
structure Invariant (d : ℕ → ℕ) (i : ℕ) (s : Scan) : Prop where
  answers_eq : ∀ c, s.ranges.filterMap (·.on c) ++ remaining s.destinations (s.rangeMin.getD i) c =
    remaining d 0 c
  run : ∀ rangeMin ∈ s.rangeMin, rangeMin < i ∧ s.destinations rangeMin ≠ noDestination ∧
    ∀ c, rangeMin ≤ c → c < i → s.destinations c = s.destinations rangeMin

theorem answers_append {range : Range} {ranges : List Range} {d d' : ℕ → ℕ} (hle : rangeMin ≤ i)
    (h : (range.on c = some (d c) ∧ rangeMin ≤ c ∧ d c ≠ noDestination ∧
        (c < i ∨ d' c = noDestination)) ∨
      range.on c = none ∧ d' c = d c ∧ (c < rangeMin ∨ i ≤ c)) :
    (ranges ++ [range]).filterMap (·.on c) ++ remaining d' i c =
      ranges.filterMap (·.on c) ++ remaining d rangeMin c := by
  rw [filterMap_append, append_assoc]
  unfold remaining
  rcases h with ⟨hon, hmin, hne, hgone⟩ | ⟨hon, hkeep, hout⟩
  · have hnone : ¬(i ≤ c ∧ d' c ≠ noDestination) := by omega
    rw [if_neg hnone, if_pos ⟨hmin, hne⟩]
    simp [hon]
  · have hiff : i ≤ c ↔ rangeMin ≤ c := by omega
    simp [hon, hkeep, hiff]

theorem commit_answers (hlt : rangeMin < i) (hmin : s.destinations rangeMin ≠ noDestination)
    (hrun : ∀ c, rangeMin ≤ c → c < i → s.destinations c = s.destinations rangeMin) (c : ℕ) :
    (s.commit rangeMin (i - 1)).ranges.filterMap (·.on c) ++
        remaining (s.commit rangeMin (i - 1)).destinations i c =
      s.ranges.filterMap (·.on c) ++ remaining s.destinations rangeMin c := by
  unfold commit
  split_ifs with hfold
  · obtain ⟨hlow, hhigh, hsame⟩ := hfold
    have hmem : ∀ c, c ∈ (upTo rangeMin (i - 1)).map toASCIILower ↔
        rangeMin + 0x20 ≤ c ∧ c < i + 0x20 := by
      intro c
      simp only [mem_map, mem_upTo]
      constructor
      · rintro ⟨x, hx, rfl⟩
        rw [toASCIILower, if_pos (by omega)]
        omega
      · intro h
        refine ⟨c - 0x20, by omega, ?_⟩
        rw [toASCIILower, if_pos (by omega)]
        omega
    apply answers_append hlt.le
    simp only [Range.on, compared, Bool.false_eq_true, if_false, setAll_apply, hmem]
    rw [if_neg (by omega : ¬(rangeMin + 0x20 ≤ rangeMin ∧ rangeMin < i + 0x20))]
    by_cases hin : (rangeMin ≤ c ∧ c < i) ∨ (rangeMin + 0x20 ≤ c ∧ c < i + 0x20)
    · have hval : s.destinations c = s.destinations rangeMin := by
        rcases hin with hin | hin
        · exact hrun c hin.1 hin.2
        · have hsmall := hsame (c - 0x20) (mem_upTo.mpr (by omega))
          rw [toASCIILower, if_pos (by omega), Nat.sub_add_cancel (by omega)] at hsmall
          exact hsmall.symm
      refine .inl ⟨?_, by omega, hval ▸ hmin, hin.imp And.right fun h => if_pos h⟩
      rw [hval]
      refine if_pos ?_
      unfold toASCIILower
      split_ifs <;> omega
    · refine .inr ⟨if_neg ?_, if_neg (by omega), by omega⟩
      unfold toASCIILower
      split_ifs <;> omega
  · apply answers_append hlt.le
    by_cases hin : rangeMin ≤ c ∧ c ≤ i - 1
    · have hval := hrun c hin.1 (by omega)
      exact .inl ⟨by rw [hval]; exact if_pos hin, hin.1, hval ▸ hmin, .inl (by omega)⟩
    · exact .inr ⟨if_neg hin, rfl, by omega⟩

theorem remaining_succ (h : d i = noDestination) : remaining d (i + 1) c = remaining d i c := by
  unfold remaining
  by_cases hc : c = i
  · simp [hc, h]
  · have hiff : i + 1 ≤ c ↔ i ≤ c := by omega
    simp only [hiff]

theorem Invariant.step (h : Invariant d i s) : Invariant d (i + 1) (s.step i) := by
  obtain ⟨hans, hrun⟩ := h
  unfold Scan.step
  cases hmin : s.rangeMin with
  | none =>
    rw [hmin] at hans
    dsimp only
    split_ifs with hdest
    · refine ⟨hans, ?_⟩
      rintro _ ⟨⟩
      refine ⟨Nat.lt_succ_self i, hdest, fun c hle hlt => ?_⟩
      rw [Nat.le_antisymm (Nat.le_of_lt_succ hlt) hle]
    · refine ⟨fun c => ?_, by rw [hmin]; exact nofun⟩
      rw [hmin, ← hans c]
      exact congrArg _ (remaining_succ (not_not.mp hdest))
  | some rangeMin =>
    obtain ⟨hlt, hne, hsame⟩ := hrun rangeMin hmin
    rw [hmin] at hans
    dsimp only
    split_ifs with hdest hgone
    · refine ⟨fun c => ?_, nofun⟩
      exact (congrArg _ (remaining_succ hgone)).trans
        ((commit_answers hlt hne hsame c).trans (hans c))
    · refine ⟨fun c => (commit_answers hlt hne hsame c).trans (hans c), ?_⟩
      rintro _ ⟨⟩
      refine ⟨Nat.lt_succ_self i, hgone, fun c hle hlt => ?_⟩
      rw [Nat.le_antisymm (Nat.le_of_lt_succ hlt) hle]
    · refine ⟨by rw [hmin]; exact hans, ?_⟩
      rw [hmin]
      rintro _ ⟨⟩
      refine ⟨by omega, hne, fun c hle hlt => ?_⟩
      rcases Nat.lt_succ_iff_lt_or_eq.mp hlt with hlt | rfl
      · exact hsame c hle hlt
      · exact not_not.mp hdest

theorem invariant_foldl (d : ℕ → ℕ) (n : ℕ) :
    Invariant d n ((List.range n).foldl Scan.step ⟨d, [], none⟩) := by
  induction n with
  | zero => exact ⟨fun c => rfl, nofun⟩
  | succ n ih =>
    rw [range_succ, foldl_append]
    exact ih.step

end Scan

theorem answers_collectRanges (d : ℕ → ℕ) {c : ℕ} (hc : c < 128) :
    (collectRanges d).filterMap (·.on c) = remaining d 0 c := by
  obtain ⟨hans, hrun⟩ := Scan.invariant_foldl d 128
  unfold collectRanges
  generalize (List.range 128).foldl Scan.step ⟨d, [], none⟩ = s at hans hrun
  have hpast (d' : ℕ → ℕ) : remaining d' 128 c = [] := if_neg (by omega)
  rw [← hans c]
  cases hmin : s.rangeMin with
  | none => simp only [hmin, Option.getD_none, hpast, append_nil]
  | some rangeMin =>
    obtain ⟨hlt, hne, hsame⟩ := hrun rangeMin hmin
    simp only [hmin, Option.getD_some]
    rw [← append_nil (filterMap _ _), ← hpast s.destinations]
    apply Scan.answers_append hlt.le
    by_cases hin : rangeMin ≤ c
    · have hval := hsame c hin hc
      exact .inl ⟨by rw [hval]; exact if_pos ⟨hin, Nat.le_of_lt_succ hc⟩, hin, hval ▸ hne, .inl hc⟩
    · exact .inr ⟨if_neg (fun h => hin h.1), rfl, .inl (by omega)⟩

/-- A jump table stands for ranges of single characters that follow each other. -/
theorem filterMap_on_eq {min : ℕ} {caseSensitive : Bool} {run : List Range}
    (h : ∀ k range, run[k]? = some range →
      range.min = min + k ∧ range.max = min + k ∧ range.caseSensitive = caseSensitive) (c : ℕ) :
    run.filterMap (·.on c) =
      if min ≤ compared caseSensitive c ∧ compared caseSensitive c < min + run.length then
        [(run.map Range.destination).getD (compared caseSensitive c - min) noDestination]
      else [] := by
  induction run generalizing min with
  | nil =>
    rw [if_neg (by rw [length_nil]; omega)]
    rfl
  | cons range rest ih =>
    obtain ⟨hmin, hmax, hcase⟩ := h 0 range rfl
    have hrest := @ih (min + 1) fun k next hnext => by
      obtain ⟨hmin, hmax, hcase⟩ := h (k + 1) next hnext
      exact ⟨by omega, by omega, hcase⟩
    rw [filterMap_cons, Range.on, hmin, hmax, hcase, hrest, length_cons]
    generalize compared caseSensitive c = c'
    by_cases hc : c' = min
    · subst hc
      simp
    · rw [if_neg (by omega)]
      dsimp only
      by_cases hin : min ≤ c' ∧ c' < min + (rest.length + 1)
      · rw [if_pos (by omega), if_pos hin, map_cons, show c' - min = c' - (min + 1) + 1 by omega]
        rfl
      · rw [if_neg (by omega), if_neg hin]

def IsRun (ranges : List Range) (base stop : ℕ) : Prop :=
  (ranges.getD base default).min = (ranges.getD base default).max ∧
    ∀ position, base < position → position < stop → ¬Breaks ranges base position

theorem IsRun.single {ranges : List Range} {base stop k : ℕ} (h : IsRun ranges base stop)
    (hk : base + k < stop) :
    (ranges.getD (base + k) default).min = (ranges.getD base default).min + k ∧
    (ranges.getD (base + k) default).max = (ranges.getD base default).min + k ∧
    (ranges.getD (base + k) default).caseSensitive = (ranges.getD base default).caseSensitive := by
  induction k with
  | zero => exact ⟨rfl, h.1.symm, rfl⟩
  | succ k ih =>
    obtain ⟨-, hmax, -⟩ := ih (by omega)
    have hnext := h.2 (base + (k + 1)) (by omega) hk
    simp only [Breaks, ne_eq, not_or, not_not] at hnext
    rw [show base + (k + 1) - 1 = base + k by omega] at hnext
    exact ⟨by omega, by omega, hnext.2.1.symm⟩

namespace Extraction

variable {s : Extraction} {base last : ℕ}

theorem answers_extract (hle : base ≤ last) (hlast : last < s.ranges.length)
    (hrun : IsRun s.ranges base (last + 1)) (c : ℕ) :
    (answers (s.extract base last).jumpTables (s.extract base last).ranges c).Perm
      (answers s.jumpTables s.ranges c) := by
  set run := (s.ranges.drop base).take (last - base + 1) with hdef
  have hlen : run.length = last - base + 1 := by
    rw [hdef, length_take, length_drop]
    omega
  have hsingle : ∀ k range, run[k]? = some range →
      range.min = (s.ranges.getD base default).min + k ∧
      range.max = (s.ranges.getD base default).min + k ∧
      range.caseSensitive = (s.ranges.getD base default).caseSensitive := by
    intro k range hget
    rw [hdef, getElem?_take] at hget
    split_ifs at hget with hk
    rw [getElem?_drop] at hget
    have hk := @hrun.single _ _ _ k (by omega)
    rwa [getD_eq_getElem?_getD, hget] at hk
  obtain ⟨-, hmax, hcase⟩ := @hrun.single _ _ _ (last - base) (by omega)
  rw [Nat.add_sub_cancel' hle] at hmax hcase
  have htable : [(extractJumpTable s.ranges base last).1].filterMap (·.on c) =
      run.filterMap (·.on c) := by
    rw [filterMap_on_eq hsingle]
    simp only [filterMap_cons, filterMap_nil, JumpTable.on, extractJumpTable, hmax, hcase,
      ← hdef, hlen]
    generalize compared _ c = c'
    by_cases hin : (s.ranges.getD base default).min ≤ c' ∧
        c' ≤ (s.ranges.getD base default).min + (last - base)
    · rw [if_pos hin, if_pos (by omega)]
    · rw [if_neg hin, if_neg (by omega)]
  have hsplit : s.ranges.take base ++ (run ++ s.ranges.drop (base + (last - base + 1))) =
      s.ranges := by
    rw [hdef, ← drop_drop, take_append_drop, take_append_drop]
  unfold answers
  rw [extract, filterMap_append, htable, append_assoc]
  refine Perm.append_left _ ?_
  rw [← filterMap_append]
  refine Perm.filterMap _ (Perm.trans ?_ (Perm.of_eq hsplit))
  rw [← append_assoc, extractJumpTable, ← append_assoc]
  exact perm_append_comm.append_right _

structure Invariant (ranges : List Range) (s : Extraction) : Prop where
  answers_perm : ∀ c, (answers s.jumpTables s.ranges c).Perm (ranges.filterMap (·.on c))
  isRun : ∀ base ∈ s.baseRangePosition, base < s.rangePosition ∧
    s.rangePosition ≤ s.ranges.length ∧ IsRun s.ranges base s.rangePosition

variable {ranges : List Range}

theorem Invariant.step (h : Invariant ranges s) (hlt : s.rangePosition < s.ranges.length) :
    Invariant ranges s.step := by
  obtain ⟨hans, hrun⟩ := h
  unfold Extraction.step
  cases hbase : s.baseRangePosition with
  | none =>
    refine ⟨hans, ?_⟩
    dsimp only
    split_ifs with hsingle
    · rintro _ ⟨⟩
      exact ⟨Nat.lt_succ_self _, hlt, hsingle, fun position hlow hhigh =>
        absurd hhigh (Nat.not_lt.mpr hlow)⟩
    · exact nofun
  | some base =>
    obtain ⟨hpos, -, hseg⟩ := hrun base hbase
    dsimp only
    split_ifs with hbreak hmany
    · refine ⟨fun c => (answers_extract (by omega) (by omega) ?_ c).trans (hans c), nofun⟩
      rwa [Nat.sub_add_cancel (by omega)]
    · exact ⟨hans, nofun⟩
    · refine ⟨hans, ?_⟩
      rintro _ ⟨⟩
      refine ⟨Nat.lt_succ_of_lt hpos, hlt, hseg.1, fun position hlow hhigh => ?_⟩
      rcases Nat.lt_succ_iff_lt_or_eq.mp hhigh with hhigh | rfl
      · exact hseg.2 position hlow hhigh
      · exact hbreak

theorem Invariant.run (h : Invariant ranges s) :
    Invariant ranges s.run ∧ s.run.ranges.length ≤ s.run.rangePosition := by
  induction s using Extraction.run.induct with
  | case1 s hlt ih =>
    rw [Extraction.run, if_pos hlt]
    exact ih (h.step hlt)
  | case2 s hge =>
    rw [Extraction.run, if_neg hge]
    exact ⟨h, not_lt.mp hge⟩

end Extraction

theorem answers_collectJumpTables (ranges : List Range) (c : ℕ) :
    (answers (collectJumpTables ranges).jumpTables (collectJumpTables ranges).ranges c).Perm
      (ranges.filterMap (·.on c)) := by
  have hinit : Extraction.Invariant ranges ⟨ranges, [], 0, none⟩ := ⟨fun _ => Perm.refl _, nofun⟩
  obtain ⟨⟨hans, hrun⟩, hend⟩ := hinit.run
  unfold collectJumpTables
  generalize Extraction.run ⟨ranges, [], 0, none⟩ = s at hans hrun hend
  cases hbase : s.baseRangePosition with
  | none => simpa only [hbase] using hans c
  | some base =>
    obtain ⟨hlt, hle, hseg⟩ := hrun base hbase
    simp only [hbase]
    split_ifs
    · refine (Extraction.answers_extract (by omega) (by omega) ?_ c).trans (hans c)
      rwa [Nat.sub_add_cancel (by omega), ← le_antisymm hle hend]
    · exact hans c

theorem lookup_ne_none_of_followsUpTo {last c : ℕ} {ranges : List (RangeMaps.Range ℕ)}
    (h : DFANode.followsUpTo last ranges) (hlt : last < c) (hc : c ≤ 127) :
    lookup ranges c ≠ none := by
  induction ranges generalizing last with
  | nil => cases h
  | cons range rest ih =>
    rw [DFANode.followsUpTo] at h
    rw [lookup_cons]
    split_ifs at h ⊢ with hfst hend hcont hcont
    all_goals try exact Option.some_ne_none _
    · omega
    · exact ih h (by omega)

/-- A node with a fallback has a target for every character but zero. -/
theorem lookup_ne_none {node : DFANode} (h : node.canUseFallbackTransition) {c : ℕ} (hc : 1 ≤ c)
    (hc' : c ≤ 127) : lookup node.transitions c ≠ none := by
  unfold DFANode.canUseFallbackTransition at h
  split at h
  · cases h
  · rename_i range rest heq
    rw [heq]
    split_ifs at h with hzero hend
    · rw [lookup_cons, if_pos (by omega)]
      exact Option.some_ne_none _
    · rw [lookup_cons]
      split_ifs with hcont
      · exact Option.some_ne_none _
      · exact lookup_ne_none_of_followsUpTo h (by omega) hc'
    · exact lookup_ne_none_of_followsUpTo h hc hc'

/-- At most one entry matches a character, it leads to the target of the node, and none does exactly
for the fallback target, or where there is no target and no fallback. -/
theorem answers_transitions {node : DFANode} (hsorted : Sorted node.transitions)
    (htargets : ∀ range ∈ node.transitions, range.data < noDestination) {c : ℕ} (hc : 1 ≤ c)
    (hc' : c ≤ 127) :
    let t := transitions node
    (answers t.jumpTables t.ranges c).length ≤ 1 ∧
      (∀ destination ∈ answers t.jumpTables t.ranges c,
        lookup node.transitions c = some destination) ∧
      (answers t.jumpTables t.ranges c = [] ↔ lookup node.transitions c =
        if t.useFallbackTransition then some t.fallbackTransitionTarget else none) := by
  intro t
  have hperm := (answers_collectJumpTables _ c).trans
    (Perm.of_eq (answers_collectRanges (destinations t.useFallbackTransition
      t.fallbackTransitionTarget node.transitions fun _ => noDestination) (by omega : c < 128)))
  rw [remaining, destinations_eq hsorted] at hperm
  change (answers t.jumpTables t.ranges c).Perm _ at hperm
  generalize answers t.jumpTables t.ranges c = found at hperm
  cases hlook : lookup node.transitions c with
  | none =>
    have huse : t.useFallbackTransition = false :=
      Bool.eq_false_iff.mpr fun huse => lookup_ne_none huse hc hc' hlook
    obtain rfl : found = [] := by simpa [hlook] using hperm
    simp [huse]
  | some target =>
    obtain ⟨range, hmem, -, rfl⟩ := exists_of_lookup hlook
    have hne := (htargets range hmem).ne
    by_cases hskip : t.useFallbackTransition ∧ t.fallbackTransitionTarget = range.data
    · obtain rfl : found = [] := by simpa [hlook, hskip, Option.filter] using hperm
      simp [hskip]
    · obtain rfl : found = [range.data] := by
        simpa [hlook, hskip, Option.filter, hne] using hperm
      refine ⟨le_rfl, by simp, iff_of_false (cons_ne_nil _ _) ?_⟩
      split_ifs with huse
      · exact fun h => hskip ⟨huse, (Option.some.inj h).symm⟩
      · exact not_false

def lettersAndDigits : DFANode := ⟨[], [⟨0x30, 0x39, 1⟩, ⟨0x41, 0x5A, 2⟩, ⟨0x61, 0x7A, 2⟩], false⟩

theorem answers_transitions_letter :
    let t := transitions lettersAndDigits
    (answers t.jumpTables t.ranges 0x61).length ≤ 1 ∧
      (∀ destination ∈ answers t.jumpTables t.ranges 0x61,
        lookup lettersAndDigits.transitions 0x61 = some destination) ∧
      (answers t.jumpTables t.ranges 0x61 = [] ↔ lookup lettersAndDigits.transitions 0x61 =
        if t.useFallbackTransition then some t.fallbackTransitionTarget else none) :=
  @answers_transitions lettersAndDigits ⟨by decide, by decide⟩ (by decide) 0x61 (by decide) (by decide)

end DFABytecodeCompiler
end WebKit.ContentExtensions
