import WebKit.Foundation.Dominance
import WebKit.Foundation.Exploration

/-!
The iterated dominance frontier. The dominance frontier of a block is found by walking
over the tree of immediate dominators below it, and the iterated one by a worklist to
which a block is appended when the functor sees it for the first time. A functor is a
function on a state, and each loop has a bound on its steps.
-/

namespace WebKit

open List Dominance Exploration

universe u

structure Dominators (Node : Type u) where
  graph : Graph Node
  idomKids : Node → List Node
  preNumber : Node → ℕ
  postNumber : Node → ℕ

namespace Dominators

variable {Node : Type u} (d : Dominators Node) {σ : Type u}

def strictlyDominates (block target : Node) : Bool :=
  d.preNumber target > d.preNumber block ∧
    d.postNumber target < d.postNumber block

def dominatedLoop (functor : σ → Node → σ) : ℕ → List Node → σ → Option σ
  | 0, _, _ => none
  | fuel + 1, worklist, state =>
    match worklist.getLast? with
    | none => some state
    | some block => dominatedLoop functor fuel (worklist.dropLast ++ d.idomKids block)
        (functor state block)

def forAllBlocksDominatedBy (fuel : ℕ) (block : Node) (functor : σ → Node → σ) (state : σ) :
    Option σ :=
  d.dominatedLoop functor fuel [block] state

def forAllBlocksInDominanceFrontierOfImpl (fuel : ℕ) (block : Node) (functor : σ → Node → σ)
    (state : σ) : Option σ :=
  d.forAllBlocksDominatedBy fuel block (fun state dominated =>
    (d.graph.successors dominated).foldl (fun state target =>
      if !d.strictlyDominates block target then functor state target else state) state) state

variable (functor : σ → Node → σ × Bool)

def append (next : σ × List Node) (otherBlock : Node) : σ × List Node :=
  ((functor next.1 otherBlock).1,
    if (functor next.1 otherBlock).2 then next.2 ++ [otherBlock] else next.2)

def forAllBlocksInIteratedDominanceFrontierOfImpl : ℕ → List Node → σ → Option σ
  | 0, _, _ => none
  | fuel + 1, worklist, state =>
    match worklist.getLast? with
    | none => some state
    | some block =>
      (d.forAllBlocksInDominanceFrontierOfImpl fuel block (append functor)
        (state, worklist.dropLast)).bind fun next =>
          forAllBlocksInIteratedDominanceFrontierOfImpl fuel next.2 next.1

structure Correct : Prop where
  mem_idomKids : ∀ block, d.graph.Reachable block → ∀ kid,
    kid ∈ d.idomKids block ↔ d.graph.ImmediatelyDominates block kid
  strictlyDominates_iff : ∀ block target, d.graph.Reachable block →
    d.graph.Reachable target →
      (d.strictlyDominates block target ↔ d.graph.StrictlyDominates block target)

def Ends (run : ℕ → Option σ) (result : σ) : Prop :=
  ∃ bound, ∀ fuel, bound ≤ fuel → run fuel = some result

theorem Ends.of_succ {run run' : ℕ → Option σ} {result : σ} (h : Ends run' result)
    (hrun : ∀ fuel, run (fuel + 1) = run' fuel) : Ends run result := by
  obtain ⟨bound, hends⟩ := h
  refine ⟨bound + 1, fun fuel hle => ?_⟩
  obtain ⟨fuel, rfl⟩ := Nat.exists_eq_add_of_lt (Nat.lt_of_lt_of_le bound.succ_pos hle)
  rw [zero_add, hrun]
  exact hends fuel (by omega)

variable {d} {block : Node}

def Visits (d : Dominators Node) (blocks visits : List Node) : Prop :=
  ∀ (σ : Type u) (functor : σ → Node → σ) (rest : List Node) (state result : σ),
    Ends (d.dominatedLoop functor · rest (visits.foldl functor state)) result →
      Ends (d.dominatedLoop functor · (rest ++ blocks) state) result

theorem exists_visits_of_forall {kids : List Node} (h : ∀ kid ∈ kids, ∃ visits : List Node,
      (∀ b, b ∈ visits ↔ d.graph.Dominates kid b) ∧ d.Visits [kid] visits) :
    ∃ visits : List Node, (∀ b, b ∈ visits ↔ ∃ kid ∈ kids, d.graph.Dominates kid b) ∧
      d.Visits kids visits := by
  induction kids using reverseRecOn with
  | nil => exact ⟨[], by simp, fun σ functor rest state result h => by simpa using h⟩
  | append_singleton kids kid ih =>
    obtain ⟨hkids, hkid⟩ := forall_mem_append.mp h
    obtain ⟨visits, hmem, hvisits⟩ := ih hkids
    obtain ⟨visits', hmem', hvisits'⟩ := hkid kid mem_cons_self
    refine ⟨visits' ++ visits, fun b => ?_, fun σ functor rest state result hends => ?_⟩
    · simp [hmem, hmem', or_and_right, exists_or, or_comm]
    · rw [← append_assoc]
      apply hvisits'
      apply hvisits
      rw [← foldl_append]
      exact hends

theorem Correct.exists_visits [Finite Node] (hcorrect : d.Correct)
    (hreach : d.graph.Reachable block) : ∃ visits : List Node,
      (∀ b, b ∈ visits ↔ d.graph.Dominates block b) ∧ d.Visits [block] visits := by
  induction hweight : {c | d.graph.Dominates block c}.ncard using Nat.strong_induction_on
    generalizing block with
  | _ weight ih =>
    have hkids := hcorrect.mem_idomKids block hreach
    obtain ⟨visits, hmem, hvisits⟩ := exists_visits_of_forall fun kid hkid =>
      ih _ (hweight ▸ ((hkids kid).mp hkid).1.ncard_lt) ((hkids kid).mp hkid).1.1.1 rfl
    refine ⟨block :: visits, fun b => ?_, fun σ functor rest state result hends => ?_⟩
    · rw [mem_cons, hmem]
      constructor
      · rintro (rfl | ⟨kid, hkid, hdom⟩)
        · exact hreach.dominates
        · exact ((hkids kid).mp hkid).1.1.trans hdom
      · intro hdom
        by_cases heq : b = block
        · exact Or.inl heq
        · obtain ⟨kid, hkid, hbelow⟩ := Graph.StrictlyDominates.exists_immediatelyDominates
            ⟨hdom, Ne.symm heq⟩
          exact Or.inr ⟨kid, (hkids kid).mpr hkid, hbelow⟩
    · refine (hvisits σ functor rest _ result hends).of_succ fun fuel => ?_
      rw [dominatedLoop, getLast?_concat, dropLast_concat]

section Correct

variable [Fintype Node] (hcorrect : d.Correct)

include hcorrect

theorem Correct.exists_targets (hreach : d.graph.Reachable block) : ∃ targets : List Node,
    (∀ target, target ∈ targets ↔ target ∈ d.graph.dominanceFrontier block) ∧
      ∀ (σ : Type u) (functor : σ → Node → σ) (state : σ), Ends
        (d.forAllBlocksInDominanceFrontierOfImpl · block functor state) (targets.foldl functor state) := by
  obtain ⟨visits, hmem, hvisits⟩ := hcorrect.exists_visits hreach
  refine ⟨(visits.flatMap d.graph.successors).filter (!d.strictlyDominates block ·),
    fun target => ?_, fun σ functor state => ?_⟩
  · rw [mem_filter, mem_flatMap]
    constructor
    · rintro ⟨⟨c, hc, hedge⟩, hnot⟩
      have hdom := (hmem c).mp hc
      refine ⟨c, hdom, hedge, fun hstrict => ?_⟩
      rw [← hcorrect.strictlyDominates_iff block target hreach hstrict.1.1] at hstrict
      simp [hstrict] at hnot
    · rintro ⟨c, hdom, hedge, hnot⟩
      refine ⟨⟨c, (hmem c).mpr hdom, hedge⟩, ?_⟩
      rw [← hcorrect.strictlyDominates_iff block target hreach (hdom.1.step hedge)] at hnot
      simpa using hnot
  · rw [foldl_filter, foldl_flatMap]
    apply hvisits σ _ [] state
    exact Ends.of_succ ⟨0, fun _ _ => rfl⟩ fun _ => rfl

section

variable (d) [DecidableEq Node]

def iteratedDominanceFrontierOf (fuel : ℕ) (blocks : List Node) : Option (List Node) :=
  d.forAllBlocksInIteratedDominanceFrontierOfImpl
    (fun result node => (add result node, decide (node ∉ result))) fuel blocks []

def forAllBlocksInPrunedIteratedDominanceFrontierOf (fuel : ℕ) (blocks : List Node)
    (functor : σ → Node → σ × Bool) (state : σ) : Option σ :=
  (d.forAllBlocksInIteratedDominanceFrontierOfImpl (fun next block =>
    if block ∈ next.1 then (next, false)
    else ((add next.1 block, (functor next.2 block).1), (functor next.2 block).2))
    fuel blocks ([], state)).map Prod.snd

def forAllBlocksInIteratedDominanceFrontierOf (fuel : ℕ) (blocks : List Node)
    (functor : σ → Node → σ) (state : σ) : Option σ :=
  d.forAllBlocksInPrunedIteratedDominanceFrontierOf fuel blocks
    (fun state block => (functor state block, true)) state

end

variable [DecidableEq Node] {blocks seen worklist : List Node}

/-- A functor whose state is given by the blocks seen, and that returns true for new blocks. -/
def Records (functor : σ → Node → σ × Bool) (call : List Node → σ) : Prop :=
  ∀ seen block, functor (call seen) block =
    if block ∈ seen then (call seen, false) else (call (seen ++ [block]), true)

omit hcorrect [Fintype Node] in
theorem Records.foldl {functor : σ → Node → σ × Bool} {call : List Node → σ}
    (h : Records functor call) (targets seen worklist : List Node) :
    targets.foldl (append functor) (call seen, worklist) =
      (targets.foldl discover (seen, worklist)).map call id := by
  induction targets generalizing seen worklist with
  | nil => rfl
  | cons target targets ih =>
    rw [foldl_cons, foldl_cons, append, h, discover]
    by_cases hseen : target ∈ seen
    · rw [if_pos hseen, if_pos hseen]
      exact ih seen worklist
    · rw [if_neg hseen, if_neg hseen]
      exact ih (seen ++ [target]) (worklist ++ [target])

theorem Correct.exists_result (hblocks : ∀ block ∈ blocks, d.graph.Reachable block)
    (h : Collecting d.graph.dominanceFrontier blocks seen worklist) :
    ∃ result, Collecting d.graph.dominanceFrontier blocks result [] ∧
      ∀ (σ : Type u) (functor : σ → Node → σ × Bool) (call : List Node → σ), Records functor call →
        Ends (d.forAllBlocksInIteratedDominanceFrontierOfImpl functor · worklist (call seen))
          (call result) := by
  induction hsteps : Fintype.card Node + worklist.length - seen.length using Nat.strong_induction_on
    generalizing seen worklist with
  | _ steps ih =>
    rcases eq_nil_or_concat' worklist with rfl | ⟨rest, block, rfl⟩
    · exact ⟨seen, h, fun σ functor call _ => Ends.of_succ ⟨0, fun _ _ => rfl⟩ fun _ => rfl⟩
    · have hreach : d.graph.Reachable block := by
        refine (h.stacked block (mem_append_right _ mem_cons_self)).elim (hblocks block) fun hseen => ?_
        refine h.least {b | d.graph.Reachable b} ?_ block hseen
        rintro _ - b ⟨c, hdom, hedge, -⟩
        exact hdom.1.step hedge
      obtain ⟨targets, htgts, hends⟩ := hcorrect.exists_targets hreach
      have hlen := length_expand seen rest targets
      have hcard := h.nodup.length_le_card
      rw [length_append, length_singleton] at hsteps
      obtain ⟨result, hres, hloop⟩ := ih _ (by omega) (h.expand htgts) rfl
      refine ⟨result, hres, fun σ functor call hrecs => ?_⟩
      obtain ⟨bound, hinner⟩ := hends _ (append functor) (call seen, rest)
      simp only [hrecs.foldl] at hinner
      obtain ⟨bound', houter⟩ := hloop σ functor call hrecs
      refine ⟨max bound bound' + 1, fun fuel hle => ?_⟩
      obtain ⟨fuel, rfl⟩ := Nat.exists_eq_add_of_le' (Nat.le_of_add_left_le hle)
      simp only [forAllBlocksInIteratedDominanceFrontierOfImpl, List.getLast?_concat, dropLast_concat]
      rw [hinner fuel (by omega), Option.bind_some]
      exact houter fuel (by omega)

/-- Both functions end. They find the least set that contains the dominance frontiers of the
given blocks and of its own, and the functor is called once for each member. -/
theorem iteratedDominanceFrontier_spec (hblocks : ∀ block ∈ blocks, d.graph.Reachable block) :
    ∃ result : List Node, result.Nodup ∧
      IsLeast {X : Set Node | ∀ block, block ∈ blocks ∨ block ∈ X → d.graph.dominanceFrontier block ⊆ X}
        {block | block ∈ result} ∧
      Ends (d.iteratedDominanceFrontierOf · blocks) result ∧
      ∀ (σ : Type u) (functor : σ → Node → σ) (state : σ), Ends
        (d.forAllBlocksInIteratedDominanceFrontierOf · blocks functor state)
        (result.foldl functor state) := by
  have hstart : Collecting d.graph.dominanceFrontier blocks [] blocks :=
    ⟨nodup_nil, nofun, fun _ => Or.inl, fun _ => Or.imp_right nofun⟩
  obtain ⟨result, hres, hends⟩ := hcorrect.exists_result hblocks hstart
  refine ⟨result, hres.nodup, hres.isLeast, hends _ _ id fun seen block => ?_,
    fun σ functor state => ?_⟩
  · by_cases hseen : block ∈ seen <;> simp [add, hseen]
  · have hrecs : Records (fun (next : List Node × σ) block => if block ∈ next.1 then (next, false)
        else ((add next.1 block, functor next.2 block), true)) fun seen =>
          (seen, seen.foldl functor state) := fun seen block => by
      by_cases hseen : block ∈ seen <;> simp [add, hseen]
    obtain ⟨bound, hrun⟩ := hends _ _ _ hrecs
    exact ⟨bound, fun fuel hle => congrArg (Option.map Prod.snd) (hrun fuel hle)⟩

end Correct

/-- A branch in a loop: the loop begins at 1, and its branches 2 and 3 meet at 4. -/
def branchInLoop : Dominators (Fin 5) where
  graph := ⟨0, fun block => [[1], [2, 3], [4], [4], [1]].getD block []⟩
  idomKids block := [[1], [2, 3, 4], [], [], []].getD block []
  preNumber block := block
  postNumber block := [4, 3, 0, 1, 2].getD block 0

def branchDominators (block : Fin 5) : List (Fin 5) :=
  [[0], [0, 1], [0, 1, 2], [0, 1, 3], [0, 1, 4]].getD block []

theorem pathIn_branchInLoop {a b : Fin 5} (h : a ∉ branchDominators b) :
    branchInLoop.graph.PathIn {a}ᶜ b := by
  have hback : ∀ a b : Fin 5, a ∉ branchDominators b → b ≠ a ∧ (b = 0 ∨
      ∃ c < b, b ∈ branchInLoop.graph.successors c ∧ a ∉ branchDominators c) := by
    decide
  induction b using WellFoundedLT.induction with
  | _ b ih =>
    obtain ⟨hne, rfl | ⟨c, hlt, hedge, hc⟩⟩ := hback a b h
    · exact .root hne
    · exact (ih c hlt hc).step hedge hne

theorem notMem_branchDominators {a b : Fin 5} (hpath : branchInLoop.graph.PathIn {a}ᶜ b) :
    a ∉ branchDominators b := by
  have hroot : ∀ a : Fin 5, 0 ≠ a → a ∉ branchDominators 0 := by decide
  have hstep : ∀ a b c : Fin 5, c ∈ branchInLoop.graph.successors b → c ≠ a →
      a ∉ branchDominators b → a ∉ branchDominators c := by
    decide
  induction hpath with
  | root hne => exact hroot a hne
  | step _ hedge hne ih => exact hstep a _ _ hedge hne ih

theorem dominates_branchInLoop_iff {a b : Fin 5} :
    branchInLoop.graph.Dominates a b ↔ a ∈ branchDominators b := by
  have hreach : branchInLoop.graph.Reachable b := by
    have hmiss : ∀ b : Fin 5, ∃ a, a ∉ branchDominators b := by decide
    obtain ⟨c, hc⟩ := hmiss b
    exact (pathIn_branchInLoop hc).mono (Set.subset_univ _)
  exact ⟨fun hdom => not_not.mp fun hnot => hdom.2 (pathIn_branchInLoop hnot),
    fun hmem => ⟨hreach, fun hpath => notMem_branchDominators hpath hmem⟩⟩

theorem reachable_branchInLoop (block : Fin 5) : branchInLoop.graph.Reachable block := by
  have hself : ∀ block : Fin 5, block ∈ branchDominators block := by decide
  exact (dominates_branchInLoop_iff.mpr (hself block)).1

theorem correct_branchInLoop : branchInLoop.Correct := by
  have hstrict : ∀ a b, branchInLoop.graph.StrictlyDominates a b ↔
      a ∈ branchDominators b ∧ a ≠ b := fun a b =>
    and_congr_left fun _ => dominates_branchInLoop_iff
  have hkids : ∀ block kid, kid ∈ branchInLoop.idomKids block ↔
      branchInLoop.graph.ImmediatelyDominates block kid := by
    simp only [Graph.ImmediatelyDominates, hstrict]
    decide
  have hnumbers : ∀ block target, branchInLoop.strictlyDominates block target ↔
      branchInLoop.graph.StrictlyDominates block target := by
    simp only [hstrict]
    decide
  exact ⟨fun block _ => hkids block, fun block target _ _ => hnumbers block target⟩

theorem mem_dominanceFrontier_branchInLoop {a b : Fin 5}
    (hedge : b ∈ branchInLoop.graph.successors a) (hnot : a ∉ branchDominators b) :
    b ∈ branchInLoop.graph.dominanceFrontier a :=
  ⟨a, (reachable_branchInLoop a).dominates, hedge,
    fun hstrict => hnot (dominates_branchInLoop_iff.mp hstrict.1)⟩

/-- From a branch the iterated frontier goes on to where the branches meet and from there to the
beginning of the loop. -/
theorem iteratedDominanceFrontier_branchInLoop :
    ∃ result : List (Fin 5), result.Nodup ∧ 4 ∈ result ∧ 1 ∈ result ∧
      IsLeast {X : Set (Fin 5) | ∀ block, block ∈ [2] ∨ block ∈ X →
        branchInLoop.graph.dominanceFrontier block ⊆ X} {block | block ∈ result} ∧
      Ends (branchInLoop.iteratedDominanceFrontierOf · [2]) result := by
  obtain ⟨result, hnodup, hleast, hends, -⟩ := iteratedDominanceFrontier_spec
    correct_branchInLoop fun block (_ : block ∈ [2]) => reachable_branchInLoop block
  have hmeet : 4 ∈ result := hleast.1 2 (.inl mem_cons_self)
    (mem_dominanceFrontier_branchInLoop (by decide) (by decide))
  have hbegin : 1 ∈ result := hleast.1 4 (.inr hmeet)
    (mem_dominanceFrontier_branchInLoop (by decide) (by decide))
  exact ⟨result, hnodup, hmeet, hbegin, hleast, hends⟩

end Dominators

end WebKit
