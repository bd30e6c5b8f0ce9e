import Mathlib

/-!
Refinement of the nodes of a deterministic graph to bisimilarity. Blocks of nodes and cords of edges
refine each other: the edges of a cord are those with one label into one block, and the nodes of a block
are split by whether they have an edge in the next cord. A cord that is split after it was used for
splitting need not be used again as a whole, only its new part.
-/

namespace WebKit.PartitionRefinement

variable {V E L K : Type*}

structure Graph (V E L : Type*) where
  source : E → V
  target : E → V
  label : E → L
  deterministic : ∀ {e e'}, source e = source e' → label e = label e' → e = e'

structure Bisimulation (graph : Graph V E L) (key : V → K) (R : V → V → Prop) : Prop where
  key_eq : ∀ {p q}, R p q → key p = key q
  forth : ∀ {p q}, R p q → ∀ e, graph.source e = p →
    ∃ e', graph.source e' = q ∧ graph.label e' = graph.label e ∧ R (graph.target e) (graph.target e')
  back : ∀ {p q}, R p q → ∀ e', graph.source e' = q →
    ∃ e, graph.source e = p ∧ graph.label e = graph.label e' ∧ R (graph.target e) (graph.target e')

def Bisimilar (graph : Graph V E L) (key : V → K) (p q : V) : Prop :=
  ∃ R, Bisimulation graph key R ∧ R p q

/-- Cords are the edges of one label into one block, bisimilar nodes share a block, and the cords
before `next` do not tell the nodes of a block apart. -/
structure Invariant (graph : Graph V E L) (key : V → K) (block : V → ℕ) (cord : E → ℕ) (next : ℕ) :
    Prop where
  cord_eq_iff : ∀ e e', cord e = cord e' ↔
    graph.label e = graph.label e' ∧ block (graph.target e) = block (graph.target e')
  block_eq : ∀ {p q}, Bisimilar graph key p q → block p = block q
  used : ∀ {p q}, block p = block q → ∀ e, graph.source e = p → cord e < next →
    ∃ e', graph.source e' = q ∧ graph.label e' = graph.label e ∧ (cord e' = cord e ∨ next ≤ cord e')

variable {graph : Graph V E L} {key : V → K} {block block' : V → ℕ} {cord cord' : E → ℕ} {next : ℕ}

def SplitBy (block block' : V → ℕ) (nodes : V → Prop) : Prop :=
  ∀ p q, block' p = block' q ↔ block p = block q ∧ (nodes p ↔ nodes q)

theorem SplitBy.congr {nodes nodes' : V → Prop} (h : SplitBy block block' nodes)
    (hnodes : ∀ p, nodes p ↔ nodes' p) : SplitBy block block' nodes' := fun p q =>
  (h p q).trans (and_congr_right fun _ => iff_congr (hnodes p) (hnodes q))

/-- Bisimilar nodes have edges in the same cords. -/
theorem Invariant.exists_edge (h : Invariant graph key block cord next) {p q : V}
    (hpq : Bisimilar graph key p q) {index : ℕ} (hp : ∃ e, graph.source e = p ∧ cord e = index) :
    ∃ e, graph.source e = q ∧ cord e = index := by
  obtain ⟨R, hR, hpq⟩ := hpq
  obtain ⟨e, he, hcord⟩ := hp
  obtain ⟨e', he', hlabel, htgt⟩ := hR.forth hpq e he
  refine ⟨e', he', ?_⟩
  rw [← hcord]
  exact ((h.cord_eq_iff e e').mpr ⟨hlabel.symm, h.block_eq ⟨R, hR, htgt⟩⟩).symm

theorem Bisimilar.symm {p q : V} (h : Bisimilar graph key p q) : Bisimilar graph key q p := by
  obtain ⟨R, hR, hpq⟩ := h
  exact ⟨fun p q => R q p, ⟨fun h => (hR.key_eq h).symm, hR.back, hR.forth⟩, hpq⟩

/-- Before any cord is used, the blocks are split by a set of keys. -/
theorem Invariant.split_key (h : Invariant graph key block cord 0) {keys : K → Prop}
    (hblock : SplitBy block block' fun p => keys (key p))
    (hcord : ∀ e e', cord' e = cord' e' ↔
      graph.label e = graph.label e' ∧ block' (graph.target e) = block' (graph.target e')) :
    Invariant graph key block' cord' 0 where
  cord_eq_iff := hcord
  block_eq hpq := by
    obtain ⟨R, hR, hrel⟩ := hpq
    exact (hblock _ _).mpr ⟨h.block_eq ⟨R, hR, hrel⟩, iff_of_eq (congrArg keys (hR.key_eq hrel))⟩
  used _ _ _ hlt := absurd hlt (Nat.not_lt_zero _)

/-- The next cord is used to split the blocks. -/
theorem Invariant.split_next (h : Invariant graph key block cord next)
    (hblock : SplitBy block block' fun p => ∃ e, graph.source e = p ∧ cord e = next)
    (hcord : ∀ e e', cord' e = cord' e' ↔
      graph.label e = graph.label e' ∧ block' (graph.target e) = block' (graph.target e'))
    (hnew : ∀ e, cord' e = cord e ∨ next < cord' e) :
    Invariant graph key block' cord' (next + 1) where
  cord_eq_iff := hcord
  block_eq hpq :=
    (hblock _ _).mpr ⟨h.block_eq hpq, h.exists_edge hpq, h.exists_edge hpq.symm⟩
  used := by
    intro p q hpq e he hlt
    obtain ⟨hold, hsplit⟩ := (hblock p q).mp hpq
    have hcord_e : cord' e = cord e := (hnew e).resolve_right (by omega)
    have hkept {e' : E} (heq : cord e' = cord e) : cord' e' = cord' e ∨ next + 1 ≤ cord' e' := by
      rw [hcord_e, ← heq]
      exact hnew e'
    by_cases hnext : cord e = next
    · obtain ⟨e', he', hcord'⟩ := hsplit.mp ⟨e, he, hnext⟩
      have heq : cord e' = cord e := hcord'.trans hnext.symm
      exact ⟨e', he', ((h.cord_eq_iff e' e).mp heq).1, hkept heq⟩
    · obtain ⟨e', he', hlabel, heq | hle⟩ := h.used hold e he (by omega)
      · exact ⟨e', he', hlabel, hkept heq⟩
      · refine ⟨e', he', hlabel, Or.inr ?_⟩
        have hne : cord e' ≠ next := by
          intro heq
          obtain ⟨e'', he'', hcord''⟩ := hsplit.mpr ⟨e', he', heq⟩
          have hlabel'' := ((h.cord_eq_iff e'' e').mp (hcord''.trans heq.symm)).1
          have hsame := graph.deterministic (he''.trans he.symm) (hlabel''.trans hlabel)
          exact hnext (hsame ▸ hcord'')
        rcases hnew e' with heq | hlt'
        · omega
        · exact hlt'

/-- Once all cords are used, the blocks are the classes of bisimilar nodes. -/
theorem Invariant.block_eq_iff (h : Invariant graph key block cord next)
    (hdone : ∀ e, cord e < next) (hkey : ∀ p q, block p = block q → key p = key q) (p q : V) :
    block p = block q ↔ Bisimilar graph key p q := by
  have hforth : ∀ {p q}, block p = block q → ∀ e, graph.source e = p → ∃ e',
      graph.source e' = q ∧ graph.label e' = graph.label e ∧
        block (graph.target e) = block (graph.target e') := by
    intro p q hpq e he
    obtain ⟨e', he', hlabel, heq | hle⟩ := h.used hpq e he (hdone e)
    · exact ⟨e', he', hlabel, ((h.cord_eq_iff e' e).mp heq).2.symm⟩
    · exact absurd (hdone e') (Nat.not_lt.mpr hle)
  refine ⟨fun hpq => ⟨fun p q => block p = block q, ⟨hkey _ _, hforth, ?_⟩, hpq⟩, h.block_eq⟩
  intro p q hpq e' he'
  obtain ⟨e, he, hlabel, htgt⟩ := hforth hpq.symm e' he'
  exact ⟨e, he, hlabel, htgt.symm⟩

end WebKit.PartitionRefinement
