import Mathlib

/-!
Functions on a linear order that change at finitely many places. A list of edges stands for a set,
which is entered and left in turn at the edges. A list of steps stands for a function, which takes
the value of the last step that is not above the argument. When no step repeats the value before it,
the list is coalesced.
-/

namespace WebKit.StepFunctions

open List

variable {α β : Type*} [LinearOrder α]

/-- Whether a point is in the set that is entered and left in turn at the edges. -/
def inside : List α → α → Bool
  | [], _ => false
  | edge :: rest, x => decide (edge ≤ x) && !inside rest x

section Edges

variable {edge : α} {edges rest : List α} {x : α}

@[simp]
theorem inside_nil (x : α) : inside [] x = false := rfl

theorem inside_cons_of_le (h : edge ≤ x) : inside (edge :: rest) x = !inside rest x := by
  rw [inside, decide_eq_true h, Bool.true_and]

theorem inside_cons_of_lt (h : x < edge) : inside (edge :: rest) x = false := by
  rw [inside, decide_eq_false (not_le.mpr h), Bool.false_and]

theorem le_of_inside (h : inside (edge :: rest) x) : edge ≤ x :=
  of_decide_eq_true (Bool.and_eq_true_iff.mp h).1

theorem inside_of_lt (h : ∀ edge ∈ edges, x < edge) : inside edges x = false := by
  cases edges with
  | nil => rfl
  | cons edge rest => exact inside_cons_of_lt (h edge mem_cons_self)

theorem inside_first (h : (edge :: rest).Pairwise (· < ·)) : inside (edge :: rest) edge = true := by
  rw [inside_cons_of_le le_rfl, inside_of_lt (pairwise_cons.mp h).1, Bool.not_false]

/-- A set has its edges in one way only. -/
theorem eq_of_inside_eq {edges' : List α} (h : edges.Pairwise (· < ·)) (h' : edges'.Pairwise (· < ·))
    (heq : ∀ x, inside edges x = inside edges' x) : edges = edges' := by
  induction edges generalizing edges' with
  | nil =>
    cases edges' with
    | nil => rfl
    | cons edge' rest' => exact absurd ((heq edge').trans (inside_first h')) nofun
  | cons edge rest ih =>
    cases edges' with
    | nil => exact absurd ((heq edge).symm.trans (inside_first h)) nofun
    | cons edge' rest' =>
      obtain rfl : edge = edge' := by
        rcases lt_trichotomy edge edge' with hlt | hsame | hlt
        · have hin := (heq edge).symm.trans (inside_first h)
          exact absurd ((inside_cons_of_lt hlt).symm.trans hin) nofun
        · exact hsame
        · have hin := (heq edge').trans (inside_first h')
          exact absurd ((inside_cons_of_lt hlt).symm.trans hin) nofun
      obtain ⟨hlater, hrest⟩ := pairwise_cons.mp h
      obtain ⟨hlater', hrest'⟩ := pairwise_cons.mp h'
      rw [ih hrest hrest' fun x => ?_]
      rcases lt_or_ge x edge with hlt | hge
      · rw [inside_of_lt fun e he => hlt.trans (hlater e he),
          inside_of_lt fun e he => hlt.trans (hlater' e he)]
      · have hboth := heq x
        rw [inside_cons_of_le hge, inside_cons_of_le hge] at hboth
        exact Bool.not_inj hboth

/-- The set is left again at the second edge. -/
theorem inside_cons_cons {start stop : α} (h : (start :: stop :: rest).Pairwise (· < ·)) :
    inside (start :: stop :: rest) x ↔ (start ≤ x ∧ x < stop) ∨ inside rest x := by
  obtain ⟨hstart, hstop⟩ := pairwise_cons.mp h
  have hrest := (pairwise_cons.mp hstop).1
  have hle : start < stop := hstart stop mem_cons_self
  rcases lt_or_ge x stop with hlt | hge
  · have houtside : inside rest x = false := inside_of_lt fun edge hedge => hlt.trans (hrest edge hedge)
    rw [inside, inside_cons_of_lt hlt, houtside]
    simp [hlt]
  · rw [inside_cons_of_le (hle.le.trans hge), inside_cons_of_le hge]
    simp [not_lt.mpr hge]

end Edges

def value (first : β) : List (α × β) → α → β
  | [], _ => first
  | (t, v) :: rest, y => if y < t then first else value v rest y

def lastValue (first : β) : List (α × β) → β
  | [] => first
  | (_, v) :: rest => lastValue v rest

def Coalesced (first : β) : List (α × β) → Prop
  | [] => True
  | (_, v) :: rest => v ≠ first ∧ Coalesced v rest

def Ascending (steps : List (α × β)) : Prop := steps.Pairwise fun p q => p.1 < q.1

section Steps

variable {first v : β} {steps rest : List (α × β)} {t y : α}

@[simp]
theorem value_nil (first : β) (y : α) : value first [] y = first := rfl

theorem value_cons_of_lt (h : y < t) : value first ((t, v) :: rest) y = first := if_pos h

theorem value_cons_of_le (h : t ≤ y) : value first ((t, v) :: rest) y = value v rest y :=
  if_neg (not_lt.mpr h)

theorem value_of_lt (h : ∀ step ∈ steps, y < step.1) : value first steps y = first := by
  cases steps with
  | nil => rfl
  | cons step rest => exact value_cons_of_lt (h step mem_cons_self)

theorem value_of_le (h : ∀ step ∈ steps, step.1 ≤ y) : value first steps y = lastValue first steps := by
  induction steps generalizing first with
  | nil => rfl
  | cons step rest ih =>
    obtain ⟨hstep, hrest⟩ := forall_mem_cons.mp h
    rw [value_cons_of_le hstep, ih hrest]
    rfl

theorem value_mem (first : β) (steps : List (α × β)) (y : α) :
    value first steps y = first ∨ ∃ step ∈ steps, step.2 = value first steps y := by
  induction steps generalizing first with
  | nil => exact .inl rfl
  | cons step rest ih =>
    rcases lt_or_ge y step.1 with hlt | hge
    · exact .inl (value_cons_of_lt hlt)
    · rw [value_cons_of_le hge]
      rcases ih step.2 with hfst | ⟨other, hoth, heq⟩
      · exact .inr ⟨step, mem_cons_self, hfst.symm⟩
      · exact .inr ⟨other, mem_cons_of_mem _ hoth, heq⟩

theorem value_of_mem (h : Ascending steps) {step : α × β} (hstep : step ∈ steps) :
    value first steps step.1 = step.2 := by
  induction steps generalizing first with
  | nil => cases hstep
  | cons other rest ih =>
    obtain ⟨hlater, hrest⟩ := pairwise_cons.mp h
    rcases mem_cons.mp hstep with rfl | hmem
    · rw [value_cons_of_le le_rfl]
      exact value_of_lt hlater
    · rw [value_cons_of_le (hlater step hmem).le, ih hrest hmem]

/-- A function has its steps in one way only, if none repeats the value before it. -/
theorem eq_of_value_eq {steps' : List (α × β)} (h : Ascending steps) (h' : Ascending steps')
    (hc : Coalesced first steps) (hc' : Coalesced first steps')
    (heq : ∀ y, value first steps y = value first steps' y) : steps = steps' := by
  induction steps generalizing steps' first with
  | nil =>
    cases steps' with
    | nil => rfl
    | cons step' rest' => exact absurd ((heq step'.1).trans (value_of_mem h' mem_cons_self)).symm hc'.1
  | cons step rest ih =>
    have hstep : value first (step :: rest) step.1 = step.2 := value_of_mem h mem_cons_self
    cases steps' with
    | nil => exact absurd (hstep.symm.trans (heq step.1)) hc.1
    | cons step' rest' =>
      have hstep' : value first (step' :: rest') step'.1 = step'.2 := value_of_mem h' mem_cons_self
      have hplace : step.1 = step'.1 := by
        rcases lt_trichotomy step.1 step'.1 with hlt | hsame | hlt
        · exact absurd (hstep.symm.trans ((heq step.1).trans (value_cons_of_lt hlt))) hc.1
        · exact hsame
        · exact absurd (hstep'.symm.trans ((heq step'.1).symm.trans (value_cons_of_lt hlt))) hc'.1
      have hval : step.2 = step'.2 := by rw [← hstep, heq, hplace, hstep']
      obtain rfl : step = step' := Prod.ext hplace hval
      obtain ⟨hlater, hrest⟩ := pairwise_cons.mp h
      obtain ⟨hlater', hrest'⟩ := pairwise_cons.mp h'
      rw [ih hrest hrest' hc.2 hc'.2 fun y => ?_]
      rcases lt_or_ge y step.1 with hlt | hge
      · rw [value_of_lt fun s hs => hlt.trans (hlater s hs), value_of_lt fun s hs => hlt.trans (hlater' s hs)]
      · rw [← value_cons_of_le hge, heq, value_cons_of_le hge]

variable {more : List (α × β)}

theorem value_append_of_lt (h : ∀ step ∈ more, y < step.1) :
    value first (steps ++ more) y = value first steps y := by
  induction steps generalizing first with
  | nil => exact value_of_lt h
  | cons step rest ih =>
    rw [cons_append]
    rcases lt_or_ge y step.1 with hlt | hge
    · rw [value_cons_of_lt hlt, value_cons_of_lt hlt]
    · rw [value_cons_of_le hge, value_cons_of_le hge, ih]

theorem value_append_of_le (h : ∀ step ∈ steps, step.1 ≤ y) :
    value first (steps ++ more) y = value (lastValue first steps) more y := by
  induction steps generalizing first with
  | nil => rfl
  | cons step rest ih =>
    obtain ⟨hstep, hrest⟩ := forall_mem_cons.mp h
    rw [cons_append, value_cons_of_le hstep, ih hrest]
    rfl

omit [LinearOrder α] in
theorem lastValue_append (first : β) (steps more : List (α × β)) :
    lastValue first (steps ++ more) = lastValue (lastValue first steps) more := by
  induction steps generalizing first with
  | nil => rfl
  | cons step rest ih => exact ih step.2

omit [LinearOrder α] in
theorem coalesced_append : Coalesced first (steps ++ more) ↔
    Coalesced first steps ∧ Coalesced (lastValue first steps) more := by
  induction steps generalizing first with
  | nil => exact (iff_of_eq (true_and _)).symm
  | cons step rest ih => exact (and_congr_right fun _ => ih).trans and_assoc.symm

def push [DecidableEq β] (first : β) (steps : List (α × β)) (t : α) (v : β) : List (α × β) :=
  if v = lastValue first steps then steps else steps ++ [(t, v)]

variable [DecidableEq β]

theorem value_push (h : ∀ step ∈ steps, step.1 < t) (v : β) :
    value first (push first steps t v) y = if y < t then value first steps y else v := by
  unfold push
  split_ifs with hsame hlt hlt
  · rfl
  · rw [value_of_le fun step hstep => (h step hstep).le.trans (not_lt.mp hlt), hsame]
  · exact value_append_of_lt fun step hstep => by rwa [mem_singleton.mp hstep]
  · rw [value_append_of_le fun step hstep => (h step hstep).le.trans (not_lt.mp hlt),
      value_cons_of_le (not_lt.mp hlt), value_nil]

omit [LinearOrder α] in
theorem lastValue_push (first : β) (steps : List (α × β)) (t : α) (v : β) :
    lastValue first (push first steps t v) = v := by
  unfold push
  split_ifs with hsame
  · exact hsame.symm
  · exact lastValue_append first steps _

omit [LinearOrder α] in
theorem coalesced_push (h : Coalesced first steps) (t : α) (v : β) :
    Coalesced first (push first steps t v) := by
  unfold push
  split_ifs with hsame
  · exact h
  · exact coalesced_append.mpr ⟨h, hsame, trivial⟩

theorem ascending_push (h : Ascending steps) (hlt : ∀ step ∈ steps, step.1 < t) (first v : β) :
    Ascending (push first steps t v) := by
  unfold push
  split_ifs
  · exact h
  · refine pairwise_append.mpr ⟨h, pairwise_singleton _ _, fun step hstep other hoth => ?_⟩
    obtain rfl := mem_singleton.mp hoth
    exact hlt step hstep

omit [LinearOrder α] in
theorem mem_push {step : α × β} (h : step ∈ push first steps t v) : step ∈ steps ∨ step = (t, v) := by
  unfold push at h
  split_ifs at h
  · exact .inl h
  · rcases mem_append.mp h with hmem | hmem
    · exact .inl hmem
    · exact .inr (mem_singleton.mp hmem)

end Steps

end WebKit.StepFunctions
