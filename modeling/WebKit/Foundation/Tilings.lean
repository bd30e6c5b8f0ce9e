import Mathlib

/-!
Spans of addresses, and how often a list of spans covers an address. Cutting a span in two and
joining two that touch leave the coverage as it is, so a partition of some spaces into spans is
kept by following the coverage alone: it is at most one exactly when the spans are apart.
-/

namespace WebKit.Tilings

open List

structure Span where
  start : ℕ
  size : ℕ
deriving DecidableEq

namespace Span

def stop (span : Span) : ℕ := span.start + span.size

def Contains (span : Span) (a : ℕ) : Prop := span.start ≤ a ∧ a < span.stop

instance (span : Span) (a : ℕ) : Decidable (span.Contains a) :=
  inferInstanceAs (Decidable (_ ∧ _))

def Apart (left right : Span) : Prop := ∀ a, left.Contains a → ¬right.Contains a

theorem contains_start {span : Span} (h : 0 < span.size) : span.Contains span.start :=
  ⟨le_rfl, Nat.lt_add_of_pos_right h⟩

theorem contains_last {span : Span} (h : 0 < span.size) : span.Contains (span.stop - 1) := by
  simp only [Contains, stop]
  omega

end Span

def coverage (spans : List Span) (a : ℕ) : ℕ := spans.countP fun span => span.Contains a

@[simp]
theorem coverage_nil (a : ℕ) : coverage [] a = 0 := rfl

theorem coverage_cons (span : Span) (spans : List Span) (a : ℕ) :
    coverage (span :: spans) a = (if span.Contains a then 1 else 0) + coverage spans a := by
  simp only [coverage, countP_cons, decide_eq_true_eq]
  omega

theorem coverage_append (left right : List Span) (a : ℕ) :
    coverage (left ++ right) a = coverage left a + coverage right a :=
  countP_append

theorem coverage_perm {left right : List Span} (h : left.Perm right) (a : ℕ) :
    coverage left a = coverage right a :=
  h.countP_eq _

variable {spans : List Span}

theorem coverage_pos_iff {a : ℕ} : 0 < coverage spans a ↔ ∃ span ∈ spans, span.Contains a := by
  simp only [coverage, countP_pos_iff, decide_eq_true_eq]

/-- A span counts for as much as the two parts it is cut into. -/
theorem contains_cut (start first second a : ℕ) :
    (if (⟨start, first + second⟩ : Span).Contains a then 1 else 0) =
      (if (⟨start, first⟩ : Span).Contains a then 1 else 0) +
        (if (⟨start + first, second⟩ : Span).Contains a then 1 else 0) := by
  split_ifs with hwhole hfst hsnd hfst hsnd
  all_goals simp only [Span.Contains, Span.stop] at * <;> omega

theorem contains_extendRight (span : Span) (size a : ℕ) :
    (if (⟨span.start, span.size + size⟩ : Span).Contains a then 1 else 0) =
      (if span.Contains a then 1 else 0) + (if (⟨span.stop, size⟩ : Span).Contains a then 1 else 0) :=
  contains_cut span.start span.size size a

theorem contains_extendLeft (span : Span) {start size : ℕ} (h : span.start = start + size) (a : ℕ) :
    (if (⟨start, span.size + size⟩ : Span).Contains a then 1 else 0) =
      (if (⟨start, size⟩ : Span).Contains a then 1 else 0) + (if span.Contains a then 1 else 0) := by
  rw [add_comm span.size, contains_cut, ← h]

/-- The spans are apart exactly when no address is covered twice. -/
theorem pairwise_apart_iff : spans.Pairwise Span.Apart ↔ ∀ a, coverage spans a ≤ 1 := by
  induction spans with
  | nil => simp
  | cons span spans ih =>
    rw [pairwise_cons, ih]
    simp only [coverage_cons]
    constructor
    · rintro ⟨hfst, hrest⟩ a
      split_ifs with hcont
      · have hzero : ¬0 < coverage spans a := by
          rw [coverage_pos_iff]
          rintro ⟨other, hmem, hoth⟩
          exact hfst other hmem a hcont hoth
        omega
      · have := hrest a
        omega
    · intro h
      refine ⟨fun other hmem a hcont hoth => ?_, fun a => ?_⟩
      · have hpos : 0 < coverage spans a := coverage_pos_iff.mpr ⟨other, hmem, hoth⟩
        have := h a
        rw [if_pos hcont] at this
        omega
      · have := h a
        omega

def Tiles (spans spaces : List Span) : Prop :=
  spans.Pairwise Span.Apart ∧
    ∀ a, (∃ span ∈ spans, span.Contains a) ↔ ∃ space ∈ spaces, space.Contains a

theorem tiles_of_coverage {spaces : List Span} (hspaces : spaces.Pairwise Span.Apart)
    (h : ∀ a, coverage spans a = coverage spaces a) : Tiles spans spaces := by
  refine ⟨pairwise_apart_iff.mpr fun a => ?_, fun a => ?_⟩
  · rw [h a]
    exact pairwise_apart_iff.mp hspaces a
  · rw [← coverage_pos_iff, ← coverage_pos_iff, h a]

theorem Span.Apart.le_or_le {left right : Span} (h : left.Apart right) (hleft : 0 < left.size)
    (hright : 0 < right.size) : left.stop ≤ right.start ∨ right.stop ≤ left.start := by
  by_contra hlap
  rw [not_or, not_le, not_le] at hlap
  refine h (max left.start right.start) ⟨le_max_left _ _, ?_⟩ ⟨le_max_right _ _, ?_⟩
  · have := Nat.lt_add_of_pos_right (n := left.start) hleft
    exact max_lt this hlap.1
  · have := Nat.lt_add_of_pos_right (n := right.start) hright
    exact max_lt hlap.2 this

section Coalesced

def Gap (left right : Span) : Prop := left.stop < right.start ∨ right.stop < left.start

theorem Gap.symm {left right : Span} (h : Gap left right) : Gap right left := Or.symm h

instance : Std.Symm Gap := ⟨fun _ _ => Gap.symm⟩

theorem Gap.apart {left right : Span} (h : Gap left right) : left.Apart right := by
  intro a hleft hright
  simp only [Span.Contains, Gap] at *
  omega

structure Coalesced (spans : List Span) : Prop where
  size_pos : ∀ span ∈ spans, 0 < span.size
  gap : spans.Pairwise Gap

variable {spans spans' : List Span} {span other : Span}

theorem coalesced_nil : Coalesced [] := ⟨nofun, List.Pairwise.nil⟩

theorem Coalesced.perm (h : Coalesced spans) (hperm : spans.Perm spans') : Coalesced spans' :=
  ⟨fun span hmem => h.size_pos span (hperm.mem_iff.mpr hmem),
    (hperm.pairwise_iff fun hgap => hgap.symm).mp h.gap⟩

section

variable (h : Coalesced (span :: spans))

include h

theorem Coalesced.tail : Coalesced spans :=
  ⟨fun other hmem => h.size_pos other (mem_cons_of_mem _ hmem), h.gap.tail⟩

theorem Coalesced.head_pos : 0 < span.size :=
  h.size_pos span mem_cons_self

theorem Coalesced.head_gap (hmem : other ∈ spans) : Gap span other :=
  (pairwise_cons.mp h.gap).1 other hmem

/-- Replace the first span by one that keeps the gaps. -/
theorem Coalesced.replace {replaced : Span} (hpos : 0 < replaced.size)
    (hgap : ∀ other ∈ spans, 0 < other.size → Gap span other → Gap replaced other) :
    Coalesced (replaced :: spans) := by
  constructor
  · intro other hmem
    rcases mem_cons.mp hmem with rfl | hmem
    · exact hpos
    · exact h.tail.size_pos other hmem
  · refine pairwise_cons.mpr ⟨fun other hmem => ?_, h.tail.gap⟩
    exact hgap other hmem (h.tail.size_pos other hmem) (h.head_gap hmem)

end

/-- Add a span that touches none of the others. -/
theorem Coalesced.cons (h : Coalesced spans) (hpos : 0 < span.size)
    (hgap : ∀ other ∈ spans, 0 < other.size → Gap span other) : Coalesced (span :: spans) := by
  constructor
  · intro other hmem
    rcases mem_cons.mp hmem with rfl | hmem
    · exact hpos
    · exact h.size_pos other hmem
  · exact pairwise_cons.mpr ⟨fun other hmem => hgap other hmem (h.size_pos other hmem), h.gap⟩

/-- A span that is covered lies in one of the spans: at its end there would be a gap. -/
theorem Coalesced.exists_le_and_le (h : Coalesced spans) {covered : Span} (hpos : 0 < covered.size)
    (hcovd : ∀ a, covered.Contains a → 0 < coverage spans a) :
    ∃ span ∈ spans, span.start ≤ covered.start ∧ covered.stop ≤ span.stop := by
  obtain ⟨span, hspan, hstart⟩ := coverage_pos_iff.mp (hcovd _ (Span.contains_start hpos))
  refine ⟨span, hspan, hstart.1, ?_⟩
  by_contra hlt
  rw [not_le] at hlt
  obtain ⟨next, hnext, hcont⟩ :=
    coverage_pos_iff.mp (hcovd span.stop ⟨hstart.2.le, hlt⟩)
  have hne : span ≠ next := fun heq => lt_irrefl _ (heq ▸ hcont).2
  have hgap := h.gap.forall hspan hnext hne
  simp only [Gap, Span.Contains, Span.stop] at *
  omega

def NotAdjacent (left right : Span) : Prop := left.stop ≠ right.start ∧ right.stop ≠ left.start

theorem Coalesced.notAdjacent (h : Coalesced spans) : spans.Pairwise NotAdjacent := by
  refine (List.Pairwise.and_mem.mp h.gap).imp fun ⟨hleft, hright, hgap⟩ => ?_
  simp only [Gap, NotAdjacent, Span.stop] at *
  omega

end Coalesced

end WebKit.Tilings
