import WebKit.ContentExtensions.MutableRangeList
import WebKit.Foundation.Exploration
import WebKit.Foundation.HashMaps

/-!
Nondeterministic automata over ASCII characters and the builders of their nodes. A
builder collects the transitions of one node in a range list, and hands them out
sorted when it is finalized.
-/

namespace WebKit.ContentExtensions

open RangeMaps Exploration HashMaps
open List hiding lookup

structure ImmutableNFANode where
  /-- The ranges of characters with their targets. -/
  transitions : List (Range (List ℕ))
  epsilonTransitionTargets : List ℕ
  actions : List ℕ

structure NFA where
  nodes : List ImmutableNFANode

namespace NFA

def root : ℕ := 0

variable (nfa : NFA)

def transitionsForNode (nodeId : ℕ) : List (Range (List ℕ)) :=
  nfa.nodes[nodeId]?.elim [] ImmutableNFANode.transitions

def epsilonTransitionTargets (nodeId : ℕ) : List ℕ :=
  nfa.nodes[nodeId]?.elim [] ImmutableNFANode.epsilonTransitionTargets

def actions (nodeId : ℕ) : List ℕ := nfa.nodes[nodeId]?.elim [] ImmutableNFANode.actions

def automaton : εNFA ℕ ℕ where
  step
    | nodeId, some c => fun target =>
      ∃ range ∈ nfa.transitionsForNode nodeId, range.Contains c ∧ target ∈ range.data
    | nodeId, none => fun target => target ∈ nfa.epsilonTransitionTargets nodeId
  start := {root}
  accept := fun nodeId => nfa.actions nodeId ≠ []

structure WellFormed (nfa : NFA) : Prop where
  nonempty : nfa.nodes ≠ []
  sorted : ∀ node ∈ nfa.nodes, Sorted node.transitions
  ascii : ∀ node ∈ nfa.nodes, ∀ range ∈ node.transitions, range.last < 128
  targets : ∀ node ∈ nfa.nodes, ∀ range ∈ node.transitions, range.data ≠ [] ∧
    ∀ target ∈ range.data, target < nfa.nodes.length
  epsilonTargets : ∀ node ∈ nfa.nodes, ∀ target ∈ node.epsilonTransitionTargets,
    target < nfa.nodes.length

end NFA

def targetConverter : DataConverter (List ℕ) ℕ where
  convert target := [target]
  extend := add

structure ImmutableNFANodeBuilder where
  ranges : MutableRangeList (List ℕ)
  epsilonTransitionTargets : List ℕ
  actions : List ℕ
  wellFormed : ranges.WellFormed

namespace ImmutableNFANodeBuilder

theorem wellFormed_nil {Data : Type*} : MutableRangeList.WellFormed ([] : MutableRangeList Data) :=
  ⟨⟨[], trivial, List.Perm.refl _, rfl⟩, Sorted.nil⟩

def empty : ImmutableNFANodeBuilder := ⟨[], [], [], wellFormed_nil⟩

variable (builder : ImmutableNFANodeBuilder)

def addTransition (first last target : ℕ) : ImmutableNFANodeBuilder :=
  if h : first ≤ last then
    { builder with
      ranges := (builder.ranges.extend targetConverter [⟨first, last, target⟩]).get
        (by
          obtain ⟨ranges, hranges, -⟩ :=
            builder.wellFormed.extend targetConverter (sorted_singleton target h)
          simp [hranges])
      wellFormed := by
        obtain ⟨ranges, hranges, hwellFormed, -⟩ :=
          builder.wellFormed.extend targetConverter (sorted_singleton target h)
        simpa only [hranges, Option.get_some] using hwellFormed }
  else builder

def addEpsilonTransition (target : ℕ) : ImmutableNFANodeBuilder :=
  { builder with epsilonTransitionTargets := add builder.epsilonTransitionTargets target }

def setActions (actions : List ℕ) : ImmutableNFANodeBuilder :=
  { builder with actions := addAll builder.actions actions }

end ImmutableNFANodeBuilder

structure SinkOrders where
  targets : ℕ → IterationOrder ℕ
  epsilonTransitionTargets : IterationOrder ℕ
  actions : IterationOrder ℕ

def ImmutableNFANodeBuilder.finalize (orders : SinkOrders) (builder : ImmutableNFANodeBuilder) :
    ImmutableNFANode where
  transitions := builder.ranges.toList.map fun range =>
    ⟨range.first, range.last, (orders.targets range.first).order range.data⟩
  epsilonTransitionTargets := orders.epsilonTransitionTargets.order builder.epsilonTransitionTargets
  actions := orders.actions.order builder.actions

inductive BuilderCall where
  | addTransition (first last target : ℕ)
  | addEpsilonTransition (target : ℕ)
  | setActions (actions : List ℕ)

def BuilderCall.Valid (nodes : ℕ) : BuilderCall → Prop
  | .addTransition first last target => first ≤ last ∧ last < 128 ∧ target < nodes
  | .addEpsilonTransition target => target < nodes
  | .setActions _ => True

namespace ImmutableNFANodeBuilder

def perform (builder : ImmutableNFANodeBuilder) : BuilderCall → ImmutableNFANodeBuilder
  | .addTransition first last target => builder.addTransition first last target
  | .addEpsilonTransition target => builder.addEpsilonTransition target
  | .setActions actions => builder.setActions actions

structure Within (nodes : ℕ) (builder : ImmutableNFANodeBuilder) : Prop where
  ascii : ∀ range ∈ builder.ranges.toList, range.last < 128
  targets : ∀ range ∈ builder.ranges.toList, range.data ≠ [] ∧ ∀ target ∈ range.data, target < nodes
  epsilonTargets : ∀ target ∈ builder.epsilonTransitionTargets, target < nodes

variable {builder : ImmutableNFANodeBuilder} {first last target nodes : ℕ}

theorem toList_addTransition (h : first ≤ last) :
    (builder.addTransition first last target).ranges.toList =
      merge targetConverter.convert targetConverter.extend builder.ranges.toList
        [⟨first, last, target⟩] := by
  obtain ⟨ranges, hrngs, -, hlist⟩ :=
    builder.wellFormed.extend targetConverter (sorted_singleton target h)
  simp only [addTransition, dif_pos h, hrngs, Option.get_some, hlist]

def Leads (builder : ImmutableNFANodeBuilder) (c target : ℕ) : Prop :=
  ∃ targets ∈ lookup builder.ranges.toList c, target ∈ targets

/-- A transition is added on the characters of the range, and all others stay. -/
theorem leads_addTransition (h : first ≤ last) {c other : ℕ} :
    (builder.addTransition first last target).Leads c other ↔
      builder.Leads c other ∨ (first ≤ c ∧ c ≤ last) ∧ other = target := by
  unfold Leads
  rw [toList_addTransition h, lookup_merge builder.wellFormed.sorted (sorted_singleton target h),
    lookup_cons]
  cases lookup builder.ranges.toList c with
  | none =>
    split_ifs with hc
    · simp [targetConverter, hc]
    · simp [hc, lookup]
  | some targets =>
    split_ifs with hc
    · simp [combine, targetConverter, hc]
    · simp [hc, lookup]

section

variable (h : builder.Within nodes)

include h

/-- No range has an empty set of targets. -/
theorem combine_ne_nil {c : ℕ} {other : Option ℕ} :
    combine targetConverter.convert targetConverter.extend (lookup builder.ranges.toList c) other ≠
      some [] := by
  cases hget : lookup builder.ranges.toList c with
  | none => cases other <;> simp [targetConverter]
  | some targets =>
    obtain ⟨range, hmem, -, rfl⟩ := exists_of_lookup hget
    have hne := (h.targets range hmem).1
    cases other with
    | none => simpa using hne
    | some target =>
      intro hnil
      exact not_mem_nil (Option.some.inj hnil ▸ mem_add.mpr (Or.inr rfl) : target ∈ [])

theorem Within.addTransition (hrng : first ≤ last) (hlast : last < 128)
    (htgt : target < nodes) : (builder.addTransition first last target).Within nodes := by
  have hsort := (builder.addTransition first last target).wellFormed.sorted
  refine ⟨?_, ?_, ?_⟩
  · intro range hmem
    have hcont : range.Contains range.last := ⟨hsort.nonempty range hmem, le_rfl⟩
    rw [toList_addTransition hrng] at hmem
    rcases (exists_mem_merge_iff builder.wellFormed.sorted (sorted_singleton target hrng)).mp
      ⟨range, hmem, hcont⟩ with ⟨old, hold, hcont⟩ | ⟨new, hnew, hcont⟩
    · exact lt_of_le_of_lt hcont.2 (h.ascii old hold)
    · rw [mem_singleton.mp hnew] at hcont
      exact lt_of_le_of_lt hcont.2 hlast
  · intro range hmem
    have hget := hsort.lookup_of_mem hmem ⟨le_rfl, hsort.nonempty range hmem⟩
    refine ⟨fun hnil => ?_, fun other hoth => ?_⟩
    · rw [toList_addTransition hrng, lookup_merge builder.wellFormed.sorted
        (sorted_singleton target hrng), hnil] at hget
      exact combine_ne_nil h hget
    · rcases (leads_addTransition hrng).mp ⟨range.data, hget, hoth⟩ with ⟨targets, hold, hmem⟩ |
        ⟨-, rfl⟩
      · obtain ⟨old, holdMem, -, rfl⟩ := exists_of_lookup hold
        exact (h.targets old holdMem).2 other hmem
      · exact htgt
  · unfold ImmutableNFANodeBuilder.addTransition
    split_ifs
    · exact h.epsilonTargets

theorem Within.perform {call : BuilderCall} (hcall : call.Valid nodes) :
    (builder.perform call).Within nodes := by
  cases call with
  | addTransition first last target => exact h.addTransition hcall.1 hcall.2.1 hcall.2.2
  | addEpsilonTransition target =>
    refine { h with epsilonTargets := fun other hoth => ?_ }
    rcases mem_add.mp hoth with hold | rfl
    · exact h.epsilonTargets other hold
    · exact hcall
  | setActions actions => exact { h with }

theorem within_foldl_perform {calls : List BuilderCall}
    (hcalls : ∀ call ∈ calls, call.Valid nodes) : (calls.foldl perform builder).Within nodes := by
  induction calls generalizing builder with
  | nil => exact h
  | cons call calls ih =>
    obtain ⟨hcall, hcalls⟩ := forall_mem_cons.mp hcalls
    exact ih (h.perform hcall) hcalls

end

/-- A finalized node has the transitions of its builder. -/
theorem exists_finalize_iff (orders : SinkOrders) {c target : ℕ} :
    (∃ range ∈ (builder.finalize orders).transitions, range.Contains c ∧ target ∈ range.data) ↔
      builder.Leads c target := by
  rw [Leads, ← builder.wellFormed.sorted.exists_iff (fun targets => target ∈ targets)]
  constructor
  · intro ⟨range, hmem, hcont, htgt⟩
    obtain ⟨old, hold, rfl⟩ := mem_map.mp hmem
    exact ⟨old, hold, hcont, (orders.targets old.first).mem_order.mp htgt⟩
  · intro ⟨range, hmem, hcont, htgt⟩
    exact ⟨_, mem_map.mpr ⟨range, hmem, rfl⟩, hcont,
      (orders.targets range.first).mem_order.mpr htgt⟩

end ImmutableNFANodeBuilder

def NFA.build (orders : ℕ → SinkOrders) (calls : List (List BuilderCall)) : NFA where
  nodes := calls.mapIdx fun nodeId calls =>
    (calls.foldl ImmutableNFANodeBuilder.perform .empty).finalize (orders nodeId)

/-- Builders only produce well-formed automata. -/
theorem NFA.wellFormed_build (orders : ℕ → SinkOrders) {calls : List (List BuilderCall)}
    (hne : calls ≠ []) (hcalls : ∀ node ∈ calls, ∀ call ∈ node, call.Valid calls.length) :
    (NFA.build orders calls).WellFormed := by
  have hnodes : ∀ node ∈ (NFA.build orders calls).nodes, ∃ builder nodeId,
      node = ImmutableNFANodeBuilder.finalize (orders nodeId) builder ∧ builder.Within calls.length := by
    intro node hmem
    obtain ⟨nodeId, hlt, rfl⟩ := mem_mapIdx.mp hmem
    refine ⟨_, nodeId, rfl, ImmutableNFANodeBuilder.within_foldl_perform ⟨?_, ?_, ?_⟩
      (hcalls _ (getElem_mem hlt))⟩ <;> exact nofun
  have hlen : (NFA.build orders calls).nodes.length = calls.length := length_mapIdx
  rw [← hlen] at hnodes
  refine ⟨?_, ?_, ?_, ?_, ?_⟩
  · intro hnil
    rw [hnil] at hlen
    exact hne (length_eq_zero_iff.mp hlen.symm)
  · intro node hmem
    obtain ⟨builder, nodeId, rfl, -⟩ := hnodes node hmem
    have hsort := builder.wellFormed.sorted
    exact ⟨forall_mem_map.mpr hsort.nonempty, pairwise_map.mpr hsort.pairwise⟩
  · intro node hmem
    obtain ⟨builder, nodeId, rfl, hwithin⟩ := hnodes node hmem
    exact forall_mem_map.mpr hwithin.ascii
  · intro node hmem
    obtain ⟨builder, nodeId, rfl, hwithin⟩ := hnodes node hmem
    refine forall_mem_map.mpr fun range hrng => ⟨fun hnil => ?_, fun target htgt => ?_⟩
    · have hperm := ((orders nodeId).targets range.first).perm range.data
      rw [show ((orders nodeId).targets range.first).order range.data = [] from hnil] at hperm
      exact (hwithin.targets range hrng).1 (perm_nil.mp hperm.symm)
    · exact (hwithin.targets range hrng).2 target ((orders nodeId).targets _ |>.mem_order.mp htgt)
  · intro node hmem target htgt
    obtain ⟨builder, nodeId, rfl, hwithin⟩ := hnodes node hmem
    exact hwithin.epsilonTargets target ((orders nodeId).epsilonTransitionTargets.mem_order.mp htgt)

end WebKit.ContentExtensions
