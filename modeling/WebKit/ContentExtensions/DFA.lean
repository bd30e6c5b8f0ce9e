import WebKit.Foundation.RangeMaps

/-!
Deterministic automata over ASCII characters. A node has the actions that are taken
when it is reached and a partial map from characters to nodes.
-/

namespace WebKit.ContentExtensions

open RangeMaps

structure DFANode where
  actions : List ℕ
  transitions : List (Range ℕ)
  isKilled : Bool

structure DFA where
  nodes : List DFANode
  root : ℕ

namespace DFA

variable (dfa : DFA)

def target (nodeId c : ℕ) : Option ℕ :=
  dfa.nodes[nodeId]?.bind fun node => lookup node.transitions c

def readFrom (nodeId : ℕ) (word : List ℕ) : Option ℕ := word.foldlM dfa.target nodeId

variable (word : List ℕ)

def read : Option ℕ := dfa.readFrom dfa.root word

theorem read_append_singleton (c : ℕ) :
    dfa.read (word ++ [c]) = (dfa.read word).bind fun nodeId => dfa.target nodeId c := by
  unfold read readFrom
  rw [List.foldlM_append]
  simp

def actions (nodeId : ℕ) : List ℕ := dfa.nodes[nodeId]?.elim [] DFANode.actions

structure Bisimulation (dfa : DFA) (R : ℕ → ℕ → Prop) : Prop where
  actions_eq : ∀ {p q}, R p q → dfa.actions p = dfa.actions q
  target_rel : ∀ {p q}, R p q → ∀ c, Option.Rel R (dfa.target p c) (dfa.target q c)

theorem Bisimulation.symm {dfa : DFA} {R : ℕ → ℕ → Prop} (h : dfa.Bisimulation R) :
    dfa.Bisimulation fun p q => R q p := by
  refine ⟨fun hpq => (h.actions_eq hpq).symm, fun {p q} hpq c => ?_⟩
  have hrel := h.target_rel hpq c
  generalize dfa.target q c = target, dfa.target p c = other at hrel ⊢
  cases hrel with
  | some hrel => exact Option.Rel.some hrel
  | none => exact Option.Rel.none

def Bisimilar (p q : ℕ) : Prop := ∃ R, dfa.Bisimulation R ∧ R p q

structure WellFormed (dfa : DFA) : Prop where
  root_lt : dfa.root < dfa.nodes.length
  sorted : ∀ node ∈ dfa.nodes, Sorted node.transitions
  targets : ∀ node ∈ dfa.nodes, ∀ range ∈ node.transitions, range.data < dfa.nodes.length

theorem WellFormed.target_lt {dfa : DFA} (h : dfa.WellFormed) {nodeId c target : ℕ}
    (htgt : dfa.target nodeId c = some target) : target < dfa.nodes.length := by
  obtain ⟨node, hnode, hget⟩ := Option.bind_eq_some_iff.mp htgt
  obtain ⟨range, hrng, -, hdata⟩ := exists_of_lookup hget
  exact hdata ▸ h.targets node (List.mem_of_getElem? hnode) range hrng

theorem WellFormed.read_lt {dfa : DFA} (h : dfa.WellFormed) (word : List ℕ) :
    ∀ nodeId ∈ dfa.read word, nodeId < dfa.nodes.length := by
  induction word using List.reverseRecOn with
  | nil => exact fun nodeId hread => Option.some.inj hread ▸ h.root_lt
  | append_singleton word c _ =>
    intro nodeId hread
    rw [Option.mem_def, read_append_singleton] at hread
    obtain ⟨_, -, htgt⟩ := Option.bind_eq_some_iff.mp hread
    exact h.target_lt htgt

end DFA

end WebKit.ContentExtensions
