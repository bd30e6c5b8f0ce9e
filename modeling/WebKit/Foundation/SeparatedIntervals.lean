import Mathlib

/-!
Finite lists of half-open intervals over a linear order. A list is separated
when every interval is ordered and ends strictly before the next one starts.
The points of the gaps of a separated list are the points it does not cover.
-/

namespace WebKit.SeparatedIntervals

variable {α : Type*} [LinearOrder α] (intervals : List (α × α))

def covers : Set α :=
  {t | ∃ p ∈ intervals, t ∈ Set.Ico p.1 p.2}

def Separated : Prop :=
  (∀ p ∈ intervals, p.1 ≤ p.2) ∧ intervals.Pairwise (fun p q => p.2 < q.1)

@[simp]
theorem covers_nil : covers ([] : List (α × α)) = ∅ := by
  simp [covers]

@[simp]
theorem covers_cons (p : α × α) (rest : List (α × α)) :
    covers (p :: rest) = Set.Ico p.1 p.2 ∪ covers rest := by
  ext t
  simp [covers]

@[simp]
theorem covers_append (left right : List (α × α)) :
    covers (left ++ right) = covers left ∪ covers right := by
  induction left with
  | nil => simp
  | cons p rest ih => simp [ih, Set.union_assoc]

theorem separated_cons {p : α × α} {rest : List (α × α)} : Separated (p :: rest) ↔
      p.1 ≤ p.2 ∧ (∀ q ∈ rest, p.2 < q.1) ∧ Separated rest := by
  simp only [Separated, List.mem_cons, forall_eq_or_imp, List.pairwise_cons]
  tauto

theorem separated_append {left right : List (α × α)} : Separated (left ++ right) ↔
      Separated left ∧ Separated right ∧ ∀ p ∈ left, ∀ q ∈ right, p.2 < q.1 := by
  simp only [Separated, List.mem_append, List.pairwise_append]
  constructor
  · rintro ⟨hle, hl, hr, hlr⟩
    exact ⟨⟨fun p hp => hle p (Or.inl hp), hl⟩, ⟨fun p hp => hle p (Or.inr hp), hr⟩, hlr⟩
  · rintro ⟨⟨hlle, hl⟩, ⟨hrle, hr⟩, hlr⟩
    exact ⟨fun p hp => hp.elim (hlle p) (hrle p), hl, hr, hlr⟩

def Touching (p q : α × α) : Prop := q.1 ≤ p.2 ∧ p.1 ≤ q.2

def gaps (low : α) : List (α × α) → α → List (α × α)
  | [], high => [(low, high)]
  | p :: rest, high => (low, p.1) :: gaps p.2 rest high

theorem le_of_mem_gaps (low high : α) (h : Separated intervals) (hlow : ∀ p ∈ intervals, low ≤ p.1) :
    ∀ q ∈ gaps low intervals high, low ≤ q.1 := by
  induction intervals generalizing low with
  | nil => simp [gaps]
  | cons p rest ih =>
    obtain ⟨hp, hrest, hsep⟩ := separated_cons.mp h
    intro q hq
    simp only [gaps, List.mem_cons] at hq
    rcases hq with rfl | hq
    · exact le_rfl
    · have hlowp : low ≤ p.2 := (hlow p (List.mem_cons_self ..)).trans hp
      exact hlowp.trans (ih p.2 hsep (fun r hr => (hrest r hr).le) q hq)

/-- Between the outer bounds, a point is in a gap exactly when it is not covered. -/
theorem mem_covers_gaps (low high t : α) (h : Separated intervals)
    (hlow : ∀ p ∈ intervals, low ≤ p.1) (ht : low ≤ t) (ht' : t < high) :
    t ∈ covers (gaps low intervals high) ↔ t ∉ covers intervals := by
  induction intervals generalizing low with
  | nil => simp [gaps, ht, ht']
  | cons p rest ih =>
    obtain ⟨hp, hrest, hsep⟩ := separated_cons.mp h
    have hrestLow : ∀ q ∈ rest, p.2 ≤ q.1 := fun q hq => (hrest q hq).le
    rw [gaps, covers_cons, covers_cons]
    by_cases hend : p.2 ≤ t
    · have hgap : t ∉ Set.Ico low p.1 := fun hin => absurd hin.2 (not_lt.mpr (hp.trans hend))
      have hin : t ∉ Set.Ico p.1 p.2 := fun hin => absurd hin.2 (not_lt.mpr hend)
      simpa [hgap, hin] using ih p.2 hsep hrestLow hend
    · have hgaps : t ∉ covers (gaps p.2 rest high) := by
        rintro ⟨q, hq, hin⟩
        exact hend ((le_of_mem_gaps rest p.2 high hsep hrestLow q hq).trans hin.1)
      have hlater : t ∉ covers rest := by
        rintro ⟨q, hq, hin⟩
        exact hend ((hrestLow q hq).trans hin.1)
      simp [hgaps, hlater, ht, lt_of_not_ge hend]

end WebKit.SeparatedIntervals
