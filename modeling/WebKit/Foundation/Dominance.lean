import Mathlib

/-!
Dominance in a rooted graph. A node dominates a reachable node if every path from
the root to it passes the first one. Dominance is an order, and in a finite graph
strict dominance is a chain of immediate dominance, since one of the nodes between
two nodes dominates the most.
-/

namespace WebKit.Dominance

structure Graph (α : Type*) where
  root : α
  successors : α → List α

namespace Graph

variable {α : Type*} (graph : Graph α) {A B : Set α} {a b c : α}

inductive PathIn (A : Set α) : α → Prop
  | root : graph.root ∈ A → PathIn A graph.root
  | step {a b : α} : PathIn A a → b ∈ graph.successors a → b ∈ A → PathIn A b

def Reachable : α → Prop := graph.PathIn Set.univ

def Dominates (a b : α) : Prop := graph.Reachable b ∧ ¬graph.PathIn {a}ᶜ b

def StrictlyDominates (a b : α) : Prop := graph.Dominates a b ∧ a ≠ b

def ImmediatelyDominates (a b : α) : Prop :=
  graph.StrictlyDominates a b ∧ ∀ c, graph.StrictlyDominates a c → ¬graph.StrictlyDominates c b

def dominanceFrontier (a : α) : Set α :=
  {b | ∃ c, graph.Dominates a c ∧ b ∈ graph.successors c ∧ ¬graph.StrictlyDominates a b}

variable {graph}

theorem PathIn.mem (h : graph.PathIn A a) : a ∈ A := by
  cases h with
  | root hroot => exact hroot
  | step _ _ hmem => exact hmem

theorem PathIn.mono (h : graph.PathIn A a) (hsub : A ⊆ B) : graph.PathIn B a := by
  induction h with
  | root hroot => exact .root (hsub hroot)
  | step _ hedge hmem ih => exact ih.step hedge (hsub hmem)

/-- A path stays in another set, or there is the first node at which it leaves it. -/
theorem PathIn.first (B : Set α) (h : graph.PathIn A a) : graph.PathIn (A ∩ B) a ∨
    ∃ b ∈ A, b ∉ B ∧ graph.PathIn (insert b (A ∩ B)) b := by
  induction h with
  | root hroot =>
    by_cases hmem : graph.root ∈ B
    · exact .inl (.root ⟨hroot, hmem⟩)
    · exact .inr ⟨_, hroot, hmem, .root (Set.mem_insert _ _)⟩
  | @step a b _ hedge hb ih =>
    refine ih.elim (fun hpath => ?_) .inr
    by_cases hmem : b ∈ B
    · exact .inl (hpath.step hedge ⟨hb, hmem⟩)
    · exact .inr ⟨b, hb, hmem, (hpath.mono (Set.subset_insert _ _)).step hedge (Set.mem_insert _ _)⟩

theorem Reachable.step (h : graph.Reachable a) (hedge : b ∈ graph.successors a) :
    graph.Reachable b :=
  PathIn.step h hedge trivial

theorem Reachable.dominates (h : graph.Reachable a) : graph.Dominates a a :=
  ⟨h, fun hpath => hpath.mem rfl⟩

namespace Dominates

theorem reachable (h : graph.Dominates a b) : graph.Reachable a := by
  rcases PathIn.first {a}ᶜ h.1 with hpath | ⟨c, -, hc, hpath⟩
  · exact absurd (hpath.mono Set.inter_subset_right) h.2
  · obtain rfl : c = a := not_not.mp hc
    exact hpath.mono (Set.subset_univ _)

theorem trans (h : graph.Dominates a b) (h' : graph.Dominates b c) : graph.Dominates a c := by
  refine ⟨h'.1, fun havoids => ?_⟩
  rcases havoids.first {b}ᶜ with hpath | ⟨d, hmem, hd, hpath⟩
  · exact h'.2 (hpath.mono Set.inter_subset_right)
  · obtain rfl : d = b := not_not.mp hd
    exact h.2 (hpath.mono (Set.insert_subset hmem Set.inter_subset_left))

theorem antisymm (h : graph.Dominates a b) (h' : graph.Dominates b a) : a = b := by
  by_contra hne
  rcases PathIn.first {a, b}ᶜ h.1 with hpath | ⟨c, -, hc, hpath⟩
  · exact hpath.mem.2 (.inr rfl)
  · rcases not_not.mp hc with rfl | rfl
    · exact h'.2 (hpath.mono (by grind))
    · exact h.2 (hpath.mono (by grind))

end Dominates

variable [Finite α]

theorem StrictlyDominates.ncard_lt (h : graph.StrictlyDominates a b) :
    {c | graph.Dominates b c}.ncard < {c | graph.Dominates a c}.ncard := by
  refine Set.ncard_lt_ncard ⟨fun c hc => h.1.trans hc, fun hsub => ?_⟩
  exact h.2 (h.1.antisymm (hsub h.1.reachable.dominates))

theorem StrictlyDominates.exists_immediatelyDominates (h : graph.StrictlyDominates a b) :
    ∃ c, graph.ImmediatelyDominates a c ∧ graph.Dominates c b := by
  obtain ⟨c, ⟨hac, hcb⟩, hmax⟩ := Set.exists_max_image
    {c | graph.StrictlyDominates a c ∧ graph.Dominates c b} (fun c => {d | graph.Dominates c d}.ncard)
    (Set.toFinite _) ⟨b, h, h.1.1.dominates⟩
  refine ⟨c, ⟨hac, fun d had hdc => ?_⟩, hcb⟩
  exact (hmax d ⟨had, hdc.1.trans hcb⟩).not_gt hdc.ncard_lt

end Graph

end WebKit.Dominance
