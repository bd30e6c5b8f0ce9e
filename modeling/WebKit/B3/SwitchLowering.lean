import WebKit.B3.IntRange

/-!
The lowering of a switch to a tree of branches. The cases are sorted, the range of cases
is halved by comparisons until at most three are left, and these are tested one after
the other. The last test of a leaf is left out when the cases are consecutive and the
comparisons on the way bound the value on both sides.
-/

namespace WebKit.B3

open List CheckedArithmetic

variable {Target : Type*} {w : Width}

structure SwitchCase (Target : Type*) where
  caseValue : ℤ
  target : Target

inductive Successor (Target : Type*) where
  | inserted (block : ℕ)
  | existing (target : Target)

inductive Control (w : Width) (Target : Type*) where
  | jump (target : Successor Target)
  | branch (opcode : CompareOpcode) (constant : BitVec w.bits) (taken notTaken : Successor Target)

abbrev Blocks (w : Width) (Target : Type*) := List (Option (Control w Target))

variable (blocks : Blocks w Target)

def insertAfter : Blocks w Target × ℕ := (blocks ++ [none], blocks.length)

def appendControl (before : ℕ) (control : Control w Target) : Blocks w Target :=
  blocks.set before (some control)

variable (cases : List (SwitchCase Target))

def valueAt (i : ℕ) : ℤ := cases[i]?.elim 0 SwitchCase.caseValue

def targetAt (i : ℕ) (fallThrough : Target) : Target :=
  cases[i]?.elim fallThrough SwitchCase.target

def leafThreshold : ℕ := 3

def allConsecutive (start : ℕ) (hardStart : Bool) (stop : ℕ) : Bool :=
  (hardStart || (start ≠ 0 && valueAt cases (start - 1) = valueAt cases start - 1)) &&
    stop < cases.length && valueAt cases (stop - 1) = valueAt cases stop - 1 &&
    (range (stop - start - 1)).all fun i =>
      valueAt cases (start + i) + 1 = valueAt cases (start + i + 1)

def appendCheck (state : Blocks w Target × ℕ) (switchCase : SwitchCase Target) :
    Blocks w Target × ℕ :=
  let (blocks, nextCheck) := insertAfter state.1
  (appendControl blocks state.2 (.branch .equal (BitVec.ofInt _ switchCase.caseValue)
    (.existing switchCase.target) (.inserted nextCheck)), nextCheck)

variable (fallThrough : Target)

def buildLeaf (start : ℕ) (hardStart : Bool) (stop before : ℕ) (blocks : Blocks w Target) :
    Blocks w Target :=
  let size := stop - start
  let consecutive := allConsecutive cases start hardStart stop
  let limit := if consecutive then size - 1 else size
  let (blocks, before) := ((cases.drop start).take limit).foldl appendCheck (blocks, before)
  if consecutive then
    appendControl blocks before (.jump (.existing (targetAt cases (stop - 1) fallThrough)))
  else appendControl blocks before (.jump (.existing fallThrough))

def recursivelyBuildSwitch (start : ℕ) (hardStart : Bool) (stop before : ℕ)
    (blocks : Blocks w Target) : Blocks w Target :=
  if stop - start ≤ leafThreshold then
    buildLeaf cases fallThrough start hardStart stop before blocks
  else
    let medianIndex := (start + stop) / 2
    let (blocks, left) := insertAfter blocks
    let (blocks, right) := insertAfter blocks
    let blocks := appendControl blocks before (.branch .lessThan
      (BitVec.ofInt _ (valueAt cases medianIndex)) (.inserted left) (.inserted right))
    let blocks := recursivelyBuildSwitch start hardStart medianIndex left blocks
    recursivelyBuildSwitch medianIndex true stop right blocks
termination_by stop - start
decreasing_by all_goals unfold leafThreshold at *; omega

def sortedCases : List (SwitchCase Target) :=
  cases.mergeSort fun left right => left.caseValue ≤ right.caseValue

def lowerSwitch (w : Width) (cases : List (SwitchCase Target)) (fallThrough : Target) :
    Blocks w Target :=
  let sorted := sortedCases cases
  recursivelyBuildSwitch sorted fallThrough 0 false sorted.length 0 [none]

def Control.next (v : BitVec w.bits) : Control w Target → Successor Target
  | .jump target => target
  | .branch opcode constant taken notTaken => if opcode.eval v constant then taken else notTaken

def execute (v : BitVec w.bits) : ℕ → Successor Target → Option Target
  | _, .existing target => some target
  | 0, .inserted _ => none
  | fuel + 1, .inserted block =>
    match blocks[block]? with
    | some (some control) => execute v fuel (control.next v)
    | _ => none

def switchTarget (v : ℤ) : Target :=
  (cases.find? fun switchCase => switchCase.caseValue = v).elim fallThrough SwitchCase.target

section Running

inductive Goes (blocks : Blocks w Target) (v : BitVec w.bits) : Successor Target → Target → Prop
  | existing (target : Target) : Goes blocks v (.existing target) target
  | inserted {block : ℕ} {control : Control w Target} {target : Target} :
      blocks[block]? = some (some control) → Goes blocks v (control.next v) target →
        Goes blocks v (.inserted block) target

variable {blocks : Blocks w Target}

theorem Goes.exists_execute {v : BitVec w.bits} {successor : Successor Target} {target : Target}
    (h : Goes blocks v successor target) :
    ∃ enough, ∀ fuel ≥ enough, execute blocks v fuel successor = some target := by
  induction h with
  | existing target => exact ⟨0, fun fuel _ => by cases fuel <;> rfl⟩
  | inserted hblock _ ih =>
    obtain ⟨enough, henough⟩ := ih
    refine ⟨enough + 1, fun fuel hfuel => ?_⟩
    obtain ⟨fuel, rfl⟩ : ∃ k, fuel = k + 1 := ⟨fuel - 1, by omega⟩
    rw [execute, hblock]
    exact henough fuel (by omega)

def Keeps (blocks blocks' : Blocks w Target) : Prop :=
  ∀ (i : ℕ) (control : Control w Target), blocks[i]? = some (some control) →
    blocks'[i]? = some (some control)

structure Built (blocks : Blocks w Target) (before : ℕ) (blocks' : Blocks w Target) : Prop where
  length : blocks.length ≤ blocks'.length
  frame : ∀ i < blocks.length, i ≠ before → blocks'[i]? = blocks[i]?

variable {blocks' : Blocks w Target} {before : ℕ} {c : ℤ}

theorem Built.keeps (h : Built blocks before blocks') (hbefore : blocks[before]? = some none) :
    Keeps blocks blocks' := by
  intro i control hctl
  have hlt := (List.getElem?_eq_some_iff.mp hctl).1
  rw [h.frame i hlt ?_]
  · exact hctl
  · rintro rfl
    rw [hbefore] at hctl
    exact absurd (Option.some.inj hctl) nofun

theorem toInt_ofInt_of_mem (h : InSigned w.bits c) : (BitVec.ofInt w.bits c).toInt = c :=
  (BitVec.toInt_ofInt c).trans (staticCast_eq h)

theorem equal_eval_iff (h : InSigned w.bits c) (v : BitVec w.bits) :
    CompareOpcode.equal.eval v (BitVec.ofInt _ c) ↔ c = v.toInt := by
  simp only [CompareOpcode.eval, decide_eq_true_eq]
  constructor
  · rintro rfl
    exact (toInt_ofInt_of_mem h).symm
  · intro heq
    exact BitVec.eq_of_toInt_eq (heq.symm.trans (toInt_ofInt_of_mem h).symm)

theorem lessThan_eval_iff (h : InSigned w.bits c) (v : BitVec w.bits) :
    CompareOpcode.lessThan.eval v (BitVec.ofInt _ c) ↔ v.toInt < c := by
  simp only [CompareOpcode.eval, decide_eq_true_eq, toInt_ofInt_of_mem h]

theorem built_appendControl (before : ℕ) (control : Control w Target) :
    Built blocks before (appendControl blocks before control) := by
  refine ⟨by simp [appendControl], fun i _ hne => ?_⟩
  rw [appendControl, getElem?_set_ne hne.symm]

theorem getElem?_appendControl (hlt : before < blocks.length) (control : Control w Target) :
    (appendControl blocks before control)[before]? = some (some control) := by
  rw [appendControl, getElem?_set_self hlt]

/-- What is built after new blocks are inserted. -/
theorem Built.of_append {inserted : Blocks w Target} (h : Built (blocks ++ inserted) before blocks') :
    Built blocks before blocks' := by
  have hlen := h.length
  rw [length_append] at hlen
  refine ⟨by omega, fun i hi hne => ?_⟩
  rw [h.frame i (by rw [length_append]; omega) hne, getElem?_append_left hi]

/-- One part of the construction after another one, in a block that the first has inserted. -/
theorem Built.trans {blocks'' : Blocks w Target} {next : ℕ} (h : Built blocks before blocks')
    (h' : Built blocks' next blocks'') (hnext : next = before ∨ blocks.length ≤ next) :
    Built blocks before blocks'' := by
  refine ⟨h.length.trans h'.length, fun i hi hne => ?_⟩
  rw [h'.frame i (hi.trans_le h.length) (by omega), h.frame i hi hne]

/-- One test: the block is ended by the comparison, and a new block is under construction. -/
theorem appendCheck_spec (hbefore : blocks[before]? = some none) (check : SwitchCase Target) :
    ∃ blocks', appendCheck (blocks, before) check = (blocks', blocks.length) ∧
      Built blocks before blocks' ∧ blocks'[blocks.length]? = some none ∧
      blocks'[before]? = some (some (.branch .equal (BitVec.ofInt _ check.caseValue)
        (.existing check.target) (.inserted blocks.length))) := by
  have hlt := (List.getElem?_eq_some_iff.mp hbefore).1
  refine ⟨_, rfl, (built_appendControl before _).of_append, ?_, getElem?_appendControl ?_ _⟩
  · rw [appendControl, getElem?_set_ne (by omega)]
    exact getElem?_concat_length
  · exact hlt.trans_le (length_append ▸ Nat.le_add_right _ _)

/-- The tests for a list of cases lead to the target of the case that the value is equal to, or to
the last block that they insert. -/
theorem foldl_appendCheck_spec {checks : List (SwitchCase Target)}
    (hmem : ∀ entry ∈ checks, InSigned w.bits entry.caseValue)
    (hdist : checks.Pairwise fun left right => left.caseValue ≠ right.caseValue)
    (hbefore : blocks[before]? = some none) :
    ∃ blocks' last, checks.foldl appendCheck (blocks, before) = (blocks', last) ∧
      Built blocks before blocks' ∧ blocks'[last]? = some none ∧
      (last = before ∨ blocks.length ≤ last) ∧
      ∀ final, Keeps blocks' final → ∀ v, (∀ entry ∈ checks, entry.caseValue = v.toInt →
          Goes final v (.inserted before) entry.target) ∧
        ((∀ entry ∈ checks, entry.caseValue ≠ v.toInt) → ∀ target,
          Goes final v (.inserted last) target → Goes final v (.inserted before) target) := by
  induction checks generalizing blocks before with
  | nil =>
    refine ⟨blocks, before, rfl, ⟨le_rfl, fun i _ _ => rfl⟩, hbefore, .inl rfl, fun final _ v => ?_⟩
    exact ⟨nofun, fun _ target hgoes => hgoes⟩
  | cons check checks ih =>
    obtain ⟨hcheck, hmem⟩ := forall_mem_cons.mp hmem
    obtain ⟨hne, hdist⟩ := pairwise_cons.mp hdist
    obtain ⟨blocks₁, hfst, hbuilt₁, hnext, hended⟩ := appendCheck_spec hbefore check
    obtain ⟨blocks', last, hrest, hbuilt, hlast, hwhere, hgoes⟩ := ih hmem hdist hnext
    refine ⟨blocks', last, by rw [foldl_cons, hfst, hrest],
      hbuilt₁.trans hbuilt (.inr le_rfl), hlast, .inr ?_, fun final hkeeps v => ?_⟩
    · have := hbuilt₁.length
      omega
    · have hblock : final[before]? = _ := hkeeps before _ (hbuilt.keeps hnext before _ hended)
      obtain ⟨htaken, hnotTaken⟩ := hgoes final hkeeps v
      have hmiss (h : check.caseValue ≠ v.toInt) {target : Target}
          (hgo : Goes final v (.inserted blocks.length) target) :
          Goes final v (.inserted before) target := by
        refine .inserted hblock ?_
        rwa [Control.next, if_neg (mt (equal_eval_iff hcheck v).mp h)]
      constructor
      · intro entry hcase heq
        rcases mem_cons.mp hcase with rfl | hcase
        · refine .inserted hblock ?_
          rw [Control.next, if_pos ((equal_eval_iff hcheck v).mpr heq)]
          exact .existing _
        · exact hmiss (fun h => hne _ hcase (h.trans heq.symm)) (htaken entry hcase heq)
      · intro hnone target hgo
        exact hmiss (hnone check mem_cons_self)
          (hnotTaken (fun c hc => hnone c (mem_cons_of_mem _ hc)) target hgo)

end Running

section Paths

variable {cases : List (SwitchCase Target)} {v : ℤ} {start stop : ℕ} {hardStart : Bool}

/-- The calls of the recursion that lie on the way of a value: its comparisons with the medians
lead to the blocks of these calls. -/
inductive Visits (cases : List (SwitchCase Target)) (v : ℤ) : ℕ → Bool → ℕ → Prop
  | root : Visits cases v 0 false cases.length
  | left {start stop : ℕ} {hardStart : Bool} : Visits cases v start hardStart stop →
      leafThreshold < stop - start → v < valueAt cases ((start + stop) / 2) →
        Visits cases v start hardStart ((start + stop) / 2)
  | right {start stop : ℕ} {hardStart : Bool} : Visits cases v start hardStart stop →
      leafThreshold < stop - start → valueAt cases ((start + stop) / 2) ≤ v →
        Visits cases v ((start + stop) / 2) true stop

structure PathConditions (cases : List (SwitchCase Target)) (v : ℤ) (start : ℕ) (hardStart : Bool)
    (stop : ℕ) : Prop where
  stop_le : stop ≤ cases.length
  start_lt : start < stop ∨ (start = 0 ∧ hardStart = false)
  start_eq_zero : hardStart = false → start = 0
  start_value_le : hardStart = true → valueAt cases start ≤ v
  lt_stop_value : stop < cases.length → v < valueAt cases stop

theorem PathConditions.root (cases : List (SwitchCase Target)) (v : ℤ) :
    PathConditions cases v 0 false cases.length :=
  ⟨le_rfl, .inr ⟨rfl, rfl⟩, fun _ => rfl, nofun, fun h => absurd h (lt_irrefl _)⟩

section

variable (h : PathConditions cases v start hardStart stop) (hsize : leafThreshold < stop - start)

include h hsize

theorem PathConditions.left (hv : v < valueAt cases ((start + stop) / 2)) :
    PathConditions cases v start hardStart ((start + stop) / 2) := by
  have hstop := h.stop_le
  unfold leafThreshold at hsize
  exact ⟨by omega, .inl (by omega), h.start_eq_zero, h.start_value_le, fun _ => hv⟩

theorem PathConditions.right (hv : valueAt cases ((start + stop) / 2) ≤ v) :
    PathConditions cases v ((start + stop) / 2) true stop := by
  unfold leafThreshold at hsize
  exact ⟨h.stop_le, .inl (by omega), nofun, fun _ => hv, h.lt_stop_value⟩

end

theorem PathConditions.hard (h : PathConditions cases v start hardStart stop) (hne : start ≠ 0) :
    hardStart := by
  by_contra hsoft
  exact hne (h.start_eq_zero (by simpa using hsoft))

theorem Visits.pathConditions (h : Visits cases v start hardStart stop) :
    PathConditions cases v start hardStart stop := by
  induction h with
  | root => exact .root cases v
  | left _ hsize hv ih => exact ih.left hsize hv
  | right _ hsize hv ih => exact ih.right hsize hv

/-- Where the last test of a leaf is left out, the comparisons on the way to it force the value to
be that of one of its cases. -/
theorem PathConditions.exists_valueAt_eq (h : PathConditions cases v start hardStart stop)
    (hconsec : allConsecutive cases start hardStart stop) :
    ∃ i, start ≤ i ∧ i < stop ∧ valueAt cases i = v := by
  simp only [allConsecutive, Bool.and_eq_true, Bool.or_eq_true, decide_eq_true_eq,
    all_eq_true, mem_range, ne_eq] at hconsec
  obtain ⟨⟨⟨hbound, hstop⟩, hlast⟩, hall⟩ := hconsec
  have hhard : hardStart := hbound.elim id fun hne => h.hard hne.1
  have hlt : start < stop := h.start_lt.resolve_right fun hsoft => by
    rw [hhard] at hsoft
    cases hsoft.2
  have hlow := h.start_value_le hhard
  have hhigh := h.lt_stop_value hstop
  have hvals : ∀ i ≤ stop - start - 1, valueAt cases (start + i) = valueAt cases start + i := by
    intro i hi
    induction i with
    | zero => simp
    | succ i ih =>
      rw [← add_assoc, ← hall i hi, ih (by omega)]
      push_cast
      ring
  have hend := hvals (stop - start - 1) le_rfl
  rw [show start + (stop - start - 1) = stop - 1 by omega] at hend
  have hidx := hvals (v - valueAt cases start).toNat (by omega)
  exact ⟨start + (v - valueAt cases start).toNat, by omega, by omega, by omega⟩

variable {entry : SwitchCase Target} {i : ℕ}

/-- The cases of a range that are looked at from its start. -/
theorem mem_take_drop_iff {limit : ℕ} : entry ∈ (cases.drop start).take limit ↔
      ∃ i, start ≤ i ∧ i < start + limit ∧ cases[i]? = some entry := by
  rw [mem_iff_getElem?]
  constructor
  · rintro ⟨i, hi⟩
    rw [getElem?_take] at hi
    split_ifs at hi with hlt
    rw [getElem?_drop] at hi
    exact ⟨start + i, by omega, by omega, hi⟩
  · rintro ⟨i, hle, hlt, hi⟩
    refine ⟨i - start, ?_⟩
    rw [getElem?_take, if_pos (by omega), getElem?_drop, Nat.add_sub_cancel' hle, hi]

theorem valueAt_eq (h : cases[i]? = some entry) : valueAt cases i = entry.caseValue := by
  rw [valueAt, h]
  rfl

section

variable (hsort : cases.Pairwise fun left right => left.caseValue < right.caseValue) {j : ℕ}

include hsort

theorem valueAt_lt (hij : i < j) (hj : j < cases.length) : valueAt cases i < valueAt cases j := by
  rw [valueAt_eq (getElem?_eq_getElem (hij.trans hj)), valueAt_eq (getElem?_eq_getElem hj)]
  exact pairwise_iff_getElem.mp hsort i j (hij.trans hj) hj hij

theorem valueAt_inj (hi : i < cases.length) (hj : j < cases.length) (h : valueAt cases i = valueAt cases j) :
    i = j := by
  rcases Nat.lt_trichotomy i j with hlt | heq | hlt
  · exact absurd h (valueAt_lt hsort hlt hj).ne
  · exact heq
  · exact absurd h (valueAt_lt hsort hlt hi).ne'

end

/-- A case for the value lies in the range of every call on the way of the value. -/
theorem PathConditions.mem_range (h : PathConditions cases v start hardStart stop)
    (hsort : cases.Pairwise fun left right => left.caseValue < right.caseValue)
    (hi : i < cases.length) (hval : valueAt cases i = v) : start ≤ i ∧ i < stop := by
  constructor
  · by_contra hlt
    have hhard := h.hard (by omega)
    have hstart : start < cases.length := by
      have := h.stop_le
      have := h.start_lt
      rw [hhard] at this
      omega
    have := valueAt_lt hsort (not_le.mp hlt) hstart
    have := h.start_value_le hhard
    omega
  · by_contra hge
    rcases (not_lt.mp hge).eq_or_lt with rfl | hlt
    · exact absurd hval (h.lt_stop_value hi).ne'
    · have := valueAt_lt hsort hlt hi
      have := h.lt_stop_value (hlt.trans hi)
      omega

theorem switchTarget_eq {fallThrough : Target}
    (hsort : cases.Pairwise fun left right => left.caseValue < right.caseValue)
    (hi : cases[i]? = some entry) (hval : entry.caseValue = v) :
    switchTarget cases fallThrough v = entry.target := by
  have hsome : (cases.find? fun entry => entry.caseValue = v).isSome := by
    rw [find?_isSome]
    exact ⟨entry, mem_of_getElem? hi, decide_eq_true hval⟩
  obtain ⟨found, hfound⟩ := Option.isSome_iff_exists.mp hsome
  obtain ⟨j, hj⟩ := mem_iff_getElem?.mp (mem_of_find?_eq_some hfound)
  have hmatch : found.caseValue = v := by simpa using find?_some hfound
  have hsame : j = i := by
    refine valueAt_inj hsort (List.getElem?_eq_some_iff.mp hj).1 (List.getElem?_eq_some_iff.mp hi).1 ?_
    rw [valueAt_eq hj, valueAt_eq hi, hval, hmatch]
  subst hsame
  rw [switchTarget, hfound, Option.some.inj (hj.symm.trans hi)]
  rfl

theorem switchTarget_eq_fallThrough {fallThrough : Target}
    (h : ∀ entry ∈ cases, entry.caseValue ≠ v) :
    switchTarget cases fallThrough v = fallThrough := by
  have hnone : (cases.find? fun entry => entry.caseValue = v) = none := by
    rw [find?_eq_none]
    intro entry hcase
    rw [decide_eq_true_eq]
    exact h entry hcase
  rw [switchTarget, hnone]
  rfl

end Paths

section Building

variable {cases : List (SwitchCase Target)} {fallThrough : Target} {start stop before : ℕ}
  {hardStart : Bool} {blocks : Blocks w Target}

def Dispatches (cases : List (SwitchCase Target)) (fallThrough : Target) (start : ℕ) (hardStart : Bool)
    (stop before : ℕ) (blocks : Blocks w Target) : Prop :=
  ∀ final, Keeps blocks final → ∀ v : BitVec w.bits,
    PathConditions cases v.toInt start hardStart stop →
      Goes final v (.inserted before) (switchTarget cases fallThrough v.toInt)

section

variable (hmem : ∀ entry ∈ cases, InSigned w.bits entry.caseValue)
  (hsort : cases.Pairwise fun left right => left.caseValue < right.caseValue)

include hmem hsort

theorem buildLeaf_spec (hbefore : blocks[before]? = some none) :
    Built blocks before (buildLeaf cases fallThrough start hardStart stop before blocks) ∧
      Dispatches cases fallThrough start hardStart stop before
        (buildLeaf cases fallThrough start hardStart stop before blocks) := by
  set limit := if allConsecutive cases start hardStart stop then stop - start - 1 else stop - start
    with hlimit
  set checks := (cases.drop start).take limit with hchecks
  have hsub : checks.Sublist cases := (take_sublist _ _).trans (drop_sublist _ _)
  obtain ⟨blocks₁, last, hfold, hbuilt, hlast, hwhere, hgoes⟩ := foldl_appendCheck_spec
    (fun c hc => hmem c (hsub.subset hc)) ((hsort.imp fun h => h.ne).sublist hsub) hbefore
  have hlt := (List.getElem?_eq_some_iff.mp hlast).1
  set rest := if allConsecutive cases start hardStart stop then targetAt cases (stop - 1) fallThrough
    else fallThrough with hrest
  have hleaf : buildLeaf cases fallThrough start hardStart stop before blocks =
      appendControl blocks₁ last (.jump (.existing rest)) := by
    simp only [buildLeaf, ← hlimit, ← hchecks, hfold, hrest]
    split_ifs <;> rfl
  rw [hleaf]
  have hjump : Built blocks₁ last (appendControl blocks₁ last (.jump (.existing rest))) :=
    built_appendControl last _
  refine ⟨hbuilt.trans hjump hwhere, fun final hkeeps v hpath => ?_⟩
  obtain ⟨htaken, hnotTaken⟩ := hgoes final
    (fun i control h => hkeeps i control (hjump.keeps hlast i control h)) v
  have hlastGoes : Goes final v (.inserted last) rest :=
    .inserted (hkeeps last _ (getElem?_appendControl hlt _)) (.existing rest)
  by_cases hfound : ∃ entry ∈ checks, entry.caseValue = v.toInt
  · obtain ⟨entry, hcase, hval⟩ := hfound
    obtain ⟨i, -, -, hi⟩ := mem_take_drop_iff.mp hcase
    rw [switchTarget_eq hsort hi hval]
    exact htaken entry hcase hval
  · push Not at hfound
    convert hnotTaken hfound rest hlastGoes using 1
    by_cases hconsec : allConsecutive cases start hardStart stop
    · rw [hrest, if_pos hconsec]
      obtain ⟨i, hle, hi, hval⟩ := hpath.exists_valueAt_eq hconsec
      have hget := getElem?_eq_getElem (hi.trans_le hpath.stop_le)
      rw [valueAt_eq hget] at hval
      have hi : i = stop - 1 := by
        by_contra hne
        refine hfound _ (mem_take_drop_iff.mpr ⟨i, hle, ?_, hget⟩) hval
        rw [hlimit, if_pos hconsec]
        omega
      subst hi
      rw [switchTarget_eq hsort hget hval, targetAt, hget]
      rfl
    · rw [hrest, if_neg hconsec]
      refine switchTarget_eq_fallThrough fun entry hcase hval => ?_
      obtain ⟨i, hi⟩ := mem_iff_getElem?.mp hcase
      obtain ⟨hle, hi'⟩ := hpath.mem_range hsort (List.getElem?_eq_some_iff.mp hi).1
        ((valueAt_eq hi).trans hval)
      refine hfound entry (mem_take_drop_iff.mpr ⟨i, hle, ?_, hi⟩) hval
      rw [hlimit, if_neg hconsec]
      omega

theorem recursivelyBuildSwitch_spec
    (hstop : stop ≤ cases.length) (hbefore : blocks[before]? = some none) :
    Built blocks before (recursivelyBuildSwitch cases fallThrough start hardStart stop before blocks) ∧
      Dispatches cases fallThrough start hardStart stop before
        (recursivelyBuildSwitch cases fallThrough start hardStart stop before blocks) := by
  induction hsize : stop - start using Nat.strong_induction_on
    generalizing start stop before hardStart blocks with
  | _ size ih =>
    rw [recursivelyBuildSwitch]
    split_ifs with hleaf
    · exact buildLeaf_spec hmem hsort hbefore
    rw [not_le] at hleaf
    have hthreshold : 3 < stop - start := hleaf
    set median := (start + stop) / 2 with hmedian
    have hlt := (List.getElem?_eq_some_iff.mp hbefore).1
    simp only [insertAfter, append_assoc, length_append, length_cons, length_nil]
    set control : Control w Target := .branch .lessThan (BitVec.ofInt _ (valueAt cases median))
      (.inserted blocks.length) (.inserted (blocks.length + (0 + 1))) with hctl
    set blocks₁ := appendControl (blocks ++ ([none] ++ [none])) before control with hblocks₁
    have hbuilt₁ : Built blocks before blocks₁ := (built_appendControl before control).of_append
    have hended : blocks₁[before]? = some (some control) :=
      getElem?_appendControl (by rw [length_append]; omega) control
    have hleft : blocks₁[blocks.length]? = some none := by
      rw [hblocks₁, appendControl, getElem?_set_ne (by omega), getElem?_append_right le_rfl]
      simp
    have hright : blocks₁[blocks.length + (0 + 1)]? = some none := by
      rw [hblocks₁, appendControl, getElem?_set_ne (by omega), getElem?_append_right (by omega)]
      simp
    set blocks₂ := recursivelyBuildSwitch cases fallThrough start hardStart median blocks.length blocks₁
    obtain ⟨(hbuilt₂ : Built blocks₁ blocks.length blocks₂),
      (hdispatch₂ : Dispatches cases fallThrough start hardStart median blocks.length blocks₂)⟩ :=
      ih (median - start) (by omega) (by omega) hleft rfl
    have hright₂ : blocks₂[blocks.length + (0 + 1)]? = some none := by
      rw [hbuilt₂.frame _ (List.getElem?_eq_some_iff.mp hright).1 (by omega), hright]
    obtain ⟨(hbuilt₃ : Built blocks₂ (blocks.length + (0 + 1)) (recursivelyBuildSwitch cases
        fallThrough median true stop (blocks.length + (0 + 1)) blocks₂)), hdispatch₃⟩ :=
      ih (stop - median) (by omega) hstop hright₂ rfl
    refine ⟨(hbuilt₁.trans hbuilt₂ (.inr le_rfl)).trans hbuilt₃ (.inr (by omega)),
      fun final hkeeps v hpath => ?_⟩
    have hkeeps₂ : Keeps blocks₂ final :=
      fun i control h => hkeeps i control (hbuilt₃.keeps hright₂ i control h)
    refine .inserted (hkeeps₂ before _ (hbuilt₂.keeps hleft before _ hended)) ?_
    have hval : InSigned w.bits (valueAt cases median) := by
      have hget : cases[median]? = some _ := getElem?_eq_getElem (by omega)
      rw [valueAt_eq hget]
      exact hmem _ (mem_of_getElem? hget)
    rw [hctl, Control.next]
    split_ifs with hless
    · rw [lessThan_eval_iff hval] at hless
      exact hdispatch₂ final hkeeps₂ v (hpath.left hleaf hless)
    · rw [lessThan_eval_iff hval, not_lt] at hless
      exact hdispatch₃ final hkeeps v (hpath.right hleaf hless)

end

theorem sortedCases_perm (cases : List (SwitchCase Target)) : (sortedCases cases).Perm cases :=
  mergeSort_perm _ _

theorem pairwise_sortedCases (hdist : (cases.map SwitchCase.caseValue).Nodup) :
    (sortedCases cases).Pairwise fun left right => left.caseValue < right.caseValue := by
  have hle : (sortedCases cases).Pairwise fun left right => left.caseValue ≤ right.caseValue := by
    let le (left right : SwitchCase Target) : Bool := left.caseValue ≤ right.caseValue
    have htrans : ∀ a b c, le a b → le b c → le a c := by
      simpa [le] using fun a b c hab hbc => le_trans hab hbc
    have htotal : ∀ a b, le a b || le b a := by
      simpa [le] using fun a b => le_total _ _
    exact (pairwise_mergeSort htrans htotal cases).imp of_decide_eq_true
  have hne : (sortedCases cases).Pairwise fun left right => left.caseValue ≠ right.caseValue := by
    rw [← pairwise_map]
    exact ((sortedCases_perm cases).map SwitchCase.caseValue).nodup_iff.mpr hdist
  exact hle.imp₂ (fun _ _ h h' => lt_of_le_of_ne h h') hne

/-- With distinct constants the order of the cases does not matter. -/
theorem switchTarget_sortedCases (hdist : (cases.map SwitchCase.caseValue).Nodup) (v : ℤ) :
    switchTarget (sortedCases cases) fallThrough v = switchTarget cases fallThrough v := by
  cases hfind : cases.find? fun entry => entry.caseValue = v with
  | none =>
    rw [find?_eq_none] at hfind
    rw [switchTarget_eq_fallThrough, switchTarget_eq_fallThrough]
    · exact fun c hc => by simpa using hfind c hc
    · exact fun c hc => by simpa using hfind c ((sortedCases_perm cases).mem_iff.mp hc)
  | some found =>
    obtain ⟨i, hi⟩ := mem_iff_getElem?.mp
      ((sortedCases_perm cases).mem_iff.mpr (mem_of_find?_eq_some hfind))
    rw [switchTarget_eq (pairwise_sortedCases hdist) hi (by simpa using find?_some hfind),
      switchTarget, hfind]
    rfl

/-- Every value of the operand is led to the target of its case, or to the fall-through target, and
a leaf without its last test has a case for the value. -/
theorem execute_lowerSwitch (w : Width) (cases : List (SwitchCase Target)) (fallThrough : Target)
    (hmem : ∀ entry ∈ cases, InSigned w.bits entry.caseValue)
    (hdistinct : (cases.map SwitchCase.caseValue).Nodup) (v : BitVec w.bits) :
    (∃ enough, ∀ fuel ≥ enough, execute (lowerSwitch w cases fallThrough) v fuel (.inserted 0) =
        some (switchTarget cases fallThrough v.toInt)) ∧
      ∀ start hardStart stop, Visits (sortedCases cases) v.toInt start hardStart stop →
        allConsecutive (sortedCases cases) start hardStart stop = true →
          ∃ i, start ≤ i ∧ i < stop ∧ valueAt (sortedCases cases) i = v.toInt := by
  constructor
  · have hsort := pairwise_sortedCases hdistinct
    have hmem' : ∀ entry ∈ sortedCases cases, InSigned w.bits entry.caseValue :=
      fun c hc => hmem c ((sortedCases_perm cases).mem_iff.mp hc)
    obtain ⟨-, (hdispatch : Dispatches _ _ 0 false _ 0 (lowerSwitch w cases fallThrough))⟩ :=
      recursivelyBuildSwitch_spec hmem' hsort le_rfl getElem?_cons_zero
    rw [← switchTarget_sortedCases hdistinct]
    exact (hdispatch _ (fun _ _ h => h) v (.root _ _)).exists_execute
  · intro start hardStart stop hvisits hconsec
    exact hvisits.pathConditions.exists_valueAt_eq hconsec

def consecutiveCases : List (SwitchCase ℕ) := (range 8).map fun i : ℕ => ⟨10 + i, i⟩

theorem execute_lowerSwitch_consecutiveCases :
    ∃ enough, ∀ fuel ≥ enough, execute (lowerSwitch .int32 consecutiveCases 8) 13#32 fuel
      (.inserted 0) = some 3 := by
  have htgt : switchTarget consecutiveCases 8 (13#32).toInt = 3 := by decide
  rw [← htgt]
  exact (execute_lowerSwitch .int32 consecutiveCases 8 (by decide) (by decide) 13#32).1

end Building

end WebKit.B3
