import Mathlib

/-!
Runs of a partial step function. An event that is not possible in a state has no
successor, and a run over a list of events succeeds when every event is possible
in turn. Invariants pass from single steps to runs, also when only the steps that
satisfy a guard on the state before them are known to preserve them.
-/

namespace WebKit.Runs

variable {State Event : Type*} (step : State → Event → Option State) (s : State)

def run (events : List Event) : Option State := events.foldlM step s

/-- Every step of the run satisfies the guard in the state before it. -/
def Guarded (guard : State → Event → Prop) (s : State) (events : List Event) : Prop :=
  ∀ before event after t, events = before ++ event :: after →
    run step s before = some t → guard t event

@[simp]
theorem run_nil : run step s [] = some s := rfl

theorem run_cons (event : Event) (events : List Event) :
    run step s (event :: events) = (step s event).bind fun t => run step t events := rfl

theorem run_append (before after : List Event) :
    run step s (before ++ after) = (run step s before).bind fun t => run step t after := by
  simp only [run, List.foldlM_append]
  rfl

variable {s t : State} {event : Event} {events : List Event} {guard : State → Event → Prop}
  {Inv : State → Prop}

theorem run_cons_eq_some {u : State} : run step s (event :: events) = some u ↔
      ∃ t, step s event = some t ∧ run step t events = some u := by
  rw [run_cons, Option.bind_eq_some_iff]

theorem run_append_eq_some {u : State} {before after : List Event} :
    run step s (before ++ after) = some u ↔
      ∃ t, run step s before = some t ∧ run step t after = some u := by
  rw [run_append, Option.bind_eq_some_iff]

/-- The guard of a run holds at its first step and along the rest. -/
theorem guarded_nil (guard : State → Event → Prop) (s : State) : Guarded step guard s [] := by
  intro before event after t heq _
  simp at heq

/-- A sequence is guarded when its first event is and those after it are. -/
theorem Guarded.cons {guard : State → Event → Prop} {s : State} {event : Event}
    {events : List Event} (hfst : guard s event)
    (hrest : ∀ t, step s event = some t → Guarded step guard t events) :
    Guarded step guard s (event :: events) := by
  intro before event' after u heq hrun
  cases before with
  | nil =>
    obtain ⟨rfl, -⟩ := List.cons.inj heq
    cases hrun
    exact hfst
  | cons first before =>
    obtain ⟨rfl, htail⟩ := List.cons.inj heq
    obtain ⟨t, hstep, hrun⟩ := Option.bind_eq_some_iff.mp hrun
    exact hrest t hstep before event' after u htail hrun

/-- The guards of a run, tried one after the other. -/
def guards (guard : State → Event → Prop) [∀ s event, Decidable (guard s event)] :
    State → List Event → Bool
  | _, [] => true
  | s, event :: events => decide (guard s event) && (step s event).all (guards guard · events)

theorem guarded_of_guards {guard : State → Event → Prop} [∀ s event, Decidable (guard s event)]
    (h : guards step guard s events) : Guarded step guard s events := by
  induction events generalizing s with
  | nil => exact guarded_nil step guard s
  | cons event events ih =>
    rw [guards, Bool.and_eq_true, decide_eq_true_iff, Option.all_eq_true] at h
    exact Guarded.cons step h.1 fun t hstep => ih (h.2 t hstep)

theorem guarded_cons (h : Guarded step guard s (event :: events)) (hstep : step s event = some t) :
    guard s event ∧ Guarded step guard t events := by
  refine ⟨h [] event events s rfl rfl, ?_⟩
  intro before event' after u heq hrun
  refine h (event :: before) event' after u (by rw [heq, List.cons_append]) ?_
  exact (run_cons_eq_some step).mpr ⟨t, hstep, hrun⟩

/-- The first steps of a guarded run are guarded. -/
theorem Guarded.of_append {before after : List Event} (h : Guarded step guard s (before ++ after)) :
    Guarded step guard s before :=
  fun first event rest t heq hrun =>
    h first event (rest ++ after) t (by rw [heq, List.append_assoc, List.cons_append]) hrun

/-- When each guarded step keeps a relation to a model that follows along, a guarded run keeps it. -/
theorem simulation_of_guarded {Model : Type*} (apply : Model → Event → Model)
    {R : State → Model → Prop}
    (hsimulate : ∀ s m event t, R s m → guard s event → step s event = some t → R t (apply m event))
    {m : Model} (hs : R s m) (hguard : Guarded step guard s events)
    (hrun : run step s events = some t) : R t (events.foldl apply m) := by
  induction events generalizing s m with
  | nil =>
    obtain rfl : s = t := by simpa using hrun
    exact hs
  | cons event events ih =>
    obtain ⟨u, hstep, hrest⟩ := (run_cons_eq_some step).mp hrun
    obtain ⟨hfst, hguard'⟩ := guarded_cons step hguard hstep
    exact ih (hsimulate s m event u hs hfst hstep) hguard' hrest

/-- A guarded run preserves what each guarded step preserves. -/
theorem invariant_of_guarded
    (hpres : ∀ s event t, Inv s → guard s event → step s event = some t → Inv t) (hs : Inv s)
    (hguard : Guarded step guard s events) (hrun : run step s events = some t) : Inv t := by
  have hsimulate : ∀ s (m : Unit) event t, Inv s → guard s event → step s event = some t → Inv t :=
    fun s _ event t => hpres s event t
  exact simulation_of_guarded step (fun m _ => m) (R := fun s _ => Inv s) (m := ()) hsimulate hs
    hguard hrun

/-- A run preserves what each step preserves. -/
theorem invariant (hpres : ∀ s event t, Inv s → step s event = some t → Inv t) (hs : Inv s)
    (hrun : run step s events = some t) : Inv t := by
  have hguard : Guarded step (fun _ _ => True) s events := fun _ _ _ _ _ _ => trivial
  exact invariant_of_guarded step (fun s event t h _ hstep => hpres s event t h hstep) hs
    hguard hrun

/-- Every state of the run satisfies a property, and every event of it one in the state before it. -/
def Always (P : State → Prop) (Q : State → Event → Prop) (s : State) (events : List Event) : Prop :=
  ∀ before after t, events = before ++ after → run step s before = some t →
    P t ∧ ∀ event rest, after = event :: rest → Q t event

variable {P : State → Prop} {Q : State → Event → Prop}

theorem always_nil : Always step P Q s [] ↔ P s := by
  constructor
  · exact fun h => (h [] [] s rfl rfl).1
  · intro h before after t heq hrun
    obtain ⟨rfl, rfl⟩ := List.append_eq_nil_iff.mp heq.symm
    cases hrun
    exact ⟨h, nofun⟩

theorem always_cons : Always step P Q s (event :: events) ↔
      P s ∧ Q s event ∧ ∀ t, step s event = some t → Always step P Q t events := by
  constructor
  · intro h
    refine ⟨(h [] _ s rfl rfl).1, (h [] _ s rfl rfl).2 event events rfl, ?_⟩
    intro t hstep before after u heq hrun
    exact h (event :: before) after u (by rw [heq, List.cons_append])
      ((run_cons_eq_some step).mpr ⟨t, hstep, hrun⟩)
  · rintro ⟨hfst, hevent, hrest⟩ before after t heq hrun
    cases before with
    | nil =>
      cases hrun
      refine ⟨hfst, fun event' rest hafter => ?_⟩
      obtain ⟨rfl, -⟩ := List.cons.inj (heq.trans hafter)
      exact hevent
    | cons first before =>
      obtain ⟨rfl, htail⟩ := List.cons.inj heq
      obtain ⟨u, hstep, hrun⟩ := (run_cons_eq_some step).mp hrun
      exact hrest u hstep before after t htail hrun

/-- What an invariant says about states and guarded events holds along a guarded run. -/
theorem always_of_guarded (hstate : ∀ s, Inv s → P s)
    (hevent : ∀ s event, Inv s → guard s event → Q s event ∧ ∀ t, step s event = some t → Inv t)
    (hs : Inv s) (hguard : Guarded step guard s events) : Always step P Q s events := by
  induction events generalizing s with
  | nil => exact (always_nil step).mpr (hstate s hs)
  | cons event events ih =>
    have hfst : guard s event := hguard [] event events s rfl rfl
    obtain ⟨hsound, hpres⟩ := hevent s event hs hfst
    refine (always_cons step).mpr ⟨hstate s hs, hsound, fun t hstep => ?_⟩
    exact ih (hpres t hstep) (guarded_cons step hguard hstep).2

/-- When events are as they should be exactly under a guard, a run is so throughout exactly when it is
guarded. -/
theorem always_iff_guarded (hstate : ∀ s, Inv s → P s)
    (hevent : ∀ s event, Inv s → (Q s event ↔ guard s event))
    (hpres : ∀ s event t, Inv s → guard s event → step s event = some t → Inv t) (hs : Inv s) :
    Always step P Q s events ↔ Guarded step guard s events := by
  constructor
  · intro h
    induction events generalizing s with
    | nil => exact guarded_nil step guard s
    | cons event events ih =>
      obtain ⟨-, hfst, hrest⟩ := (always_cons step).mp h
      have hguard := (hevent s event hs).mp hfst
      exact Guarded.cons step hguard fun t hstep =>
        ih (hpres s event t hs hguard hstep) (hrest t hstep)
  · intro h
    refine always_of_guarded step hstate (fun s event hinv hguard => ?_) hs h
    exact ⟨(hevent s event hinv).mpr hguard, fun t => hpres s event t hinv hguard⟩

end WebKit.Runs
