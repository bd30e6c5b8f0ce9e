import WebKit.ContentExtensions.FullGraphPartition
import WebKit.Foundation.HashMaps

/-!
The minimization of a DFA. The nodes are partitioned by their actions first and then refined by the sets
of transitions, until two nodes are in one set exactly when they are bisimilar. Each node is then
replaced by the first one of its set.
-/

namespace WebKit.ContentExtensions

open List BucketPlacement HashMaps PartitionRefinement RangeMaps

def finalStates (nodes : List DFANode) : HashMap (List ℕ) (List ℕ) :=
  nodes.zipIdx.foldl (fun map entry =>
    if entry.1.actions = [] then map
    else map.insert entry.1.actions ((map.lookup entry.1.actions).getD [] ++ [entry.2])) ∅

def FullGraphPartition.splitByActions (graph : FullGraphPartition) (slot : List ℕ × List ℕ) :
    FullGraphPartition :=
  (slot.2.foldl markNode graph).refinePartitions

open FullGraphPartition (splitByActions)

namespace DFAMinimizer

variable (order : IterationOrder (List ℕ × List ℕ))

def relocationVector (dfa : DFA) : Option (List ℕ) := do
  let fullGraphPartition ← FullGraphPartition.create dfa
  let fullGraphPartition := (order.order (pairs (finalStates dfa.nodes))).foldl
    splitByActions fullGraphPartition
  let fullGraphPartition ← FullGraphPartition.splitByUniqueTransitions
    (fullGraphPartition.flattenedTransitions.length + 1) fullGraphPartition
  some ((range dfa.nodes.length).map fullGraphPartition.nodeReplacement)

def relocate (relocations : List ℕ) (dfa : DFA) : DFA where
  nodes := dfa.nodes.mapIdx fun i node =>
    if relocations.getD i 0 ≠ i then ⟨[], [], true⟩
    else { node with
      transitions := node.transitions.map fun range =>
        ⟨range.first, range.last, relocations.getD range.data 0⟩ }
  root := relocations.getD dfa.root 0

def minimize (dfa : DFA) : Option DFA :=
  (relocationVector order dfa).map fun relocations => relocate relocations dfa

end DFAMinimizer

section Refinement

variable {size : ℕ} {transitions : List SingularTransition} {K : Type*} {key : Fin size → K}
variable {nodes : List ℕ}

def ValidTransitions.graph (h : ValidTransitions size transitions) :
    Graph (Fin size) (Fin transitions.length) ℕ where
  source e := ⟨transitions[e].source, h.source_lt _ (getElem_mem _)⟩
  target e := ⟨transitions[e].target, h.target_lt _ (getElem_mem _)⟩
  label e := transitions[e].label
  deterministic := by
    intro e e' hsource hlabel
    have hpairwise := pairwise_iff_getElem.mp h.pairwise
    have hsame := congrArg Fin.val hsource
    by_contra hne
    rcases Nat.lt_or_gt_of_ne (Fin.val_ne_of_ne hne) with hlt | hlt
    · exact hpairwise e e' e.2 e'.2 hlt ⟨hsame, hlabel⟩
    · exact hpairwise e' e e'.2 e.2 hlt ⟨hsame.symm, hlabel.symm⟩

def cordOf (partition : Partition) (transitions : List SingularTransition)
    (e : Fin transitions.length) : ℕ :=
  partition.setIndex (place (transitions.map SingularTransition.target) e)

def Cords (h : ValidTransitions size transitions) (block : ℕ → ℕ) (partition : Partition) : Prop :=
  ∀ e e', cordOf partition transitions e = cordOf partition transitions e' ↔
    h.graph.label e = h.graph.label e' ∧ block (h.graph.target e) = block (h.graph.target e')

namespace FullGraphPartition

structure Refining (graph : FullGraphPartition) (h : ValidTransitions size transitions)
    (key : Fin size → K) : Prop where
  layout : graph.Layout size transitions
  settledNodes : graph.nodePartition.Settled size
  settledTransitions : graph.transitionPartition.Settled transitions.length
  invariant : PartitionRefinement.Invariant h.graph key (fun p => graph.nodePartition.setIndex p)
    (cordOf graph.transitionPartition transitions) graph.nextTransitionSetToProcess

variable {graph : FullGraphPartition} {h : ValidTransitions size transitions}

/-- The transitions to the nodes of a list. -/
theorem Layout.mem_flatMap_incoming (hlayout : graph.Layout size transitions)
    (hnodes : ∀ node ∈ nodes, node < size) (e : Fin transitions.length) :
    place (targets transitions) e ∈ nodes.flatMap graph.incomingTransitions ↔
      transitions[e].target ∈ nodes := by
  rw [mem_flatMap]
  constructor
  · intro ⟨node, hnode, hmem⟩
    obtain ⟨j, hj, htgt, hplace⟩ := (hlayout.mem_incoming_iff node (hnodes node hnode) _).mp hmem
    have heq := place_map_injective _ hj e.2 hplace
    subst heq
    exact htgt ▸ hnode
  · intro hmem
    exact ⟨_, hmem, (hlayout.mem_incoming_iff _ (hnodes _ hmem) _).mpr ⟨e, e.2, rfl, rfl⟩⟩

theorem Layout.nodup_flatMap_incoming (hlayout : graph.Layout size transitions)
    (hnodes : ∀ node ∈ nodes, node < size) (hnodup : nodes.Nodup) :
    (nodes.flatMap graph.incomingTransitions).Nodup ∧
      ∀ position ∈ nodes.flatMap graph.incomingTransitions, position < transitions.length := by
  constructor
  · rw [nodup_flatMap]
    refine ⟨fun node _ => nodup_range', hnodup.imp_of_mem fun {node other} hnode hoth hne => ?_⟩
    intro position hmem hmem'
    obtain ⟨j, hj, htgt, hplace⟩ := (hlayout.mem_incoming_iff node (hnodes node hnode) _).mp hmem
    obtain ⟨k, hk, htgt', hplace'⟩ :=
      (hlayout.mem_incoming_iff other (hnodes other hoth) _).mp hmem'
    have heq := place_map_injective _ hj hk (hplace.trans hplace'.symm)
    subst heq
    exact hne (htgt.symm.trans htgt')
  · intro position hmem
    obtain ⟨node, hnode, hmem⟩ := mem_flatMap.mp hmem
    obtain ⟨j, hj, -, rfl⟩ := (hlayout.mem_incoming_iff node (hnodes node hnode) _).mp hmem
    exact place_map_lt _ hj

structure Follows (h : ValidTransitions size transitions) (old : Partition) (block : ℕ → ℕ)
    (partition : Partition) : Prop where
  settled : partition.Settled transitions.length
  cords : Cords h block partition
  moved : ∀ e, cordOf partition transitions e = cordOf old transitions e ∨
    old.sets.length ≤ cordOf partition transitions e
  length_le : old.sets.length ≤ partition.sets.length

/-- The sets of transitions follow the split of a set of nodes. -/
theorem Follows.splitTransitions (hlayout : graph.Layout size transitions)
    {partition refined transitionPartition old : Partition} {s : ℕ}
    (hrefs : Partition.RefinesSet partition refined size s)
    (hlen : refined.sets.length = partition.sets.length + 1)
    (hfol : Follows h old partition.setIndex transitionPartition) :
    Follows h old refined.setIndex
      (graph.splitTransitions refined partition.sets.length transitionPartition) := by
  have hnew : partition.sets.length < refined.sets.length := by omega
  have hnodes {node : ℕ} := hrefs.valid.mem_elementsOfSet (x := node) hnew
  have hlt : ∀ node ∈ refined.elementsOfSet partition.sets.length, node < size :=
    fun node hnode => (hnodes.mp hnode).1
  obtain ⟨hnodup, hposn⟩ := hlayout.nodup_flatMap_incoming hlt
    (hrefs.valid.nodup_elementsOfSet hnew)
  obtain ⟨hsettle, hiff, hmoved, hle, -⟩ := hfol.settled.generation (fun _ _ state => state)
    () (P := fun _ _ => True) (fun _ _ _ _ _ _ _ _ => trivial) hposn hnodup trivial
  refine ⟨hsettle, fun e e' => ?_, fun e => ?_, hfol.length_le.trans hle⟩
  · have hplace (e : Fin transitions.length) :
        place (targets transitions) e < transitions.length := place_map_lt _ e.2
    refine (hiff (hplace e) (hplace e')).trans ?_
    rw [hlayout.mem_flatMap_incoming hlt, hlayout.mem_flatMap_incoming hlt, hnodes, hnodes]
    have hcords := hfol.cords e e'
    have htgt := (h.graph.target e).2
    have htgt' := (h.graph.target e').2
    have hsplit := hrefs.setIndex_eq_iff htgt htgt'
    have hmoves := hrefs.moved htgt
    have hmoves' := hrefs.moved htgt'
    refine (and_congr_left fun _ => hcords).trans ?_
    change (_ ∧ (h.graph.target e < size ∧ refined.setIndex (h.graph.target e) = _ ↔
      h.graph.target e' < size ∧ refined.setIndex (h.graph.target e') = _)) ↔ _
    rw [and_iff_right htgt, and_iff_right htgt', and_assoc]
    refine and_congr_right fun _ => ⟨fun hand => ?_, fun heq => ⟨(hsplit.mp heq).1, by rw [heq]⟩⟩
    obtain ⟨hblock, hmem⟩ := hand
    rcases hmoves with hkept | ⟨-, hnew⟩
    · rcases hmoves' with hkept' | ⟨-, hnew'⟩
      · rw [hkept, hkept', hblock]
      · exact (hmem.mpr hnew').trans hnew'.symm
    · exact hnew.trans (hmem.mp hnew).symm
  · rcases hmoved (place_map_lt _ e.2) with heq | hle'
    · exact (hfol.moved e).imp heq.trans fun hle => hle.trans_eq heq.symm
    · exact .inr (hfol.length_le.trans hle')

section

variable (hrefin : graph.Refining h key)

include hrefin

/-- All nodes of a list are marked, and the partitions are refined. -/
theorem Refining.refine (hlt : ∀ node ∈ nodes, node < size) (hnodup : nodes.Nodup) :
    let refined :=
      refinePartitions { graph with nodePartition := graph.nodePartition.markAll nodes }
    refined.Layout size transitions ∧ refined.nodePartition.Settled size ∧
      SplitBy (fun p : Fin size => graph.nodePartition.setIndex p)
        (fun p => refined.nodePartition.setIndex p) (fun p => (p : ℕ) ∈ nodes) ∧
      Follows h graph.transitionPartition refined.nodePartition.setIndex
        refined.transitionPartition := by
  intro refined
  have hlayout := hrefin.layout
  have hfol : Follows h graph.transitionPartition graph.nodePartition.setIndex
      graph.transitionPartition :=
    ⟨hrefin.settledTransitions, hrefin.invariant.cord_eq_iff, fun _ => .inl rfl, le_rfl⟩
  obtain ⟨hsettle, hiff, -, -, hlast⟩ := hrefin.settledNodes.generation
    (splitTransitions { graph with nodePartition := graph.nodePartition.markAll nodes })
    graph.transitionPartition (P := fun block partition =>
      Follows h graph.transitionPartition block partition)
    (fun partition refined transitionPartition s hrefs _ hlen hfol =>
      Follows.splitTransitions { hlayout with } hrefs hlen hfol) hlt hnodup hfol
  exact ⟨{ hlayout with }, hsettle, fun p q => hiff p.2 q.2, hlast⟩

/-- Before any set of transitions is used, the nodes are split by their keys. -/
theorem Refining.refine_key
    (hnext : graph.nextTransitionSetToProcess = 0) (hlt : ∀ node ∈ nodes, node < size)
    (hnodup : nodes.Nodup) (keys : K → Prop) (hkeys : ∀ p : Fin size, (p : ℕ) ∈ nodes ↔ keys (key p)) :
    let refined :=
      refinePartitions { graph with nodePartition := graph.nodePartition.markAll nodes }
    refined.Refining h key ∧ refined.nextTransitionSetToProcess = 0 ∧
      ∀ p q : Fin size, refined.nodePartition.setIndex p = refined.nodePartition.setIndex q →
        graph.nodePartition.setIndex p = graph.nodePartition.setIndex q ∧
          (keys (key p) ↔ keys (key q)) := by
  intro refined
  obtain ⟨hlayout, hsettle, hsplit, hfol⟩ := hrefin.refine hlt hnodup
  have hsplit' := hsplit.congr hkeys
  have hinv := hrefin.invariant
  rw [hnext] at hinv
  refine ⟨⟨hlayout, hsettle, hfol.settled, ?_⟩, hnext, fun p q => (hsplit' p q).mp⟩
  change PartitionRefinement.Invariant h.graph key _ _ graph.nextTransitionSetToProcess
  rw [hnext]
  exact hinv.split_key hsplit' hfol.cords

/-- The next set of transitions is used. -/
theorem Refining.processNextSet
    (hnext : graph.nextTransitionSetToProcess < graph.transitionPartition.sets.length) :
    graph.processNextSet.Refining h key ∧
      graph.processNextSet.nextTransitionSetToProcess = graph.nextTransitionSetToProcess + 1 ∧
      graph.transitionPartition.sets.length ≤ graph.processNextSet.transitionPartition.sets.length ∧
      ∀ p q : Fin size, graph.processNextSet.nodePartition.setIndex p =
          graph.processNextSet.nodePartition.setIndex q →
        graph.nodePartition.setIndex p = graph.nodePartition.setIndex q := by
  set next := graph.nextTransitionSetToProcess with hnextDef
  set nodes := (graph.transitionPartition.elementsOfSet next).map
    (graph.flattenedTransitions.getD · 0) with hnodes
  have hvalid := hrefin.settledTransitions.valid
  have helements {position : ℕ} : position ∈ graph.transitionPartition.elementsOfSet next ↔
      position < transitions.length ∧ graph.transitionPartition.setIndex position = next :=
    hvalid.mem_elementsOfSet hnext
  have hplace {position : ℕ} (hmem : position ∈ graph.transitionPartition.elementsOfSet next) :
      ∃ e : Fin transitions.length, place (targets transitions) e = position ∧
        cordOf graph.transitionPartition transitions e = next ∧
        graph.flattenedTransitions.getD position 0 = h.graph.source e := by
    obtain ⟨hlt, hidx⟩ := helements.mp hmem
    obtain ⟨j, hj, rfl⟩ := exists_place_map SingularTransition.target hlt
    exact ⟨⟨j, hj⟩, rfl, hidx, hrefin.layout.source_eq j hj⟩
  have hmem (p : Fin size) : (p : ℕ) ∈ nodes ↔ ∃ e, h.graph.source e = p ∧
      cordOf graph.transitionPartition transitions e = next := by
    rw [hnodes, mem_map]
    constructor
    · intro ⟨position, hposn, hsrc⟩
      obtain ⟨e, -, hcord, hsrc'⟩ := hplace hposn
      exact ⟨e, Fin.ext (hsrc'.symm.trans hsrc), hcord⟩
    · intro ⟨e, hsrc, hcord⟩
      refine ⟨place (targets transitions) e,
        helements.mpr ⟨place_map_lt _ e.2, hcord⟩, ?_⟩
      rw [hrefin.layout.source_eq e e.2]
      exact congrArg Fin.val hsrc
  have hlt : ∀ node ∈ nodes, node < size := by
    intro node hnode
    obtain ⟨position, hposn, rfl⟩ := mem_map.mp hnode
    obtain ⟨e, -, -, hsrc⟩ := hplace hposn
    rw [hsrc]
    exact (h.graph.source e).2
  have hnodup : nodes.Nodup := by
    refine List.Nodup.map_on (fun position hposn other hoth heq => ?_)
      (hvalid.nodup_elementsOfSet hnext)
    obtain ⟨e, rfl, hcord, hsrc⟩ := hplace hposn
    obtain ⟨e', rfl, hcord', hsrc'⟩ := hplace hoth
    have hlabel := ((hrefin.invariant.cord_eq_iff e e').mp (hcord.trans hcord'.symm)).1
    have hsame : h.graph.source e = h.graph.source e' :=
      Fin.ext (hsrc.symm.trans (heq.trans hsrc'))
    rw [h.graph.deterministic hsame hlabel]
  obtain ⟨hlayout, hsettle, hsplit, hfol⟩ := hrefin.refine hlt hnodup
  have hsplit' := hsplit.congr hmem
  refine ⟨⟨{ hlayout with }, hsettle, hfol.settled, ?_⟩, rfl,
    hfol.length_le, fun p q heq => ((hsplit' p q).mp heq).1⟩
  exact hrefin.invariant.split_next hsplit' hfol.cords fun e =>
    (hfol.moved e).imp_right hnext.trans_le

/-- All sets of transitions are used, and the nodes are partitioned into classes of bisimilar ones. -/
theorem Refining.splitByUniqueTransitions {fuel : ℕ}
    (hfuel : transitions.length < fuel + graph.nextTransitionSetToProcess)
    (hle : graph.nextTransitionSetToProcess ≤ graph.transitionPartition.sets.length)
    (hkey : ∀ p q : Fin size, graph.nodePartition.setIndex p = graph.nodePartition.setIndex q →
      key p = key q) :
    ∃ last, graph.splitByUniqueTransitions fuel = some last ∧ last.nodePartition.Settled size ∧
      ∀ p q : Fin size, last.nodePartition.setIndex p = last.nodePartition.setIndex q ↔
        Bisimilar h.graph key p q := by
  induction fuel generalizing graph with
  | zero =>
    have hlen := hrefin.settledTransitions.valid.length_sets_le
    omega
  | succ fuel ih =>
    rw [FullGraphPartition.splitByUniqueTransitions]
    split_ifs with hnext
    · obtain ⟨hrefin', hnext', hlen, hcoarse⟩ := hrefin.processNextSet hnext
      exact ih hrefin' (by omega) (by omega) fun p q heq => hkey p q (hcoarse p q heq)
    · refine ⟨graph, rfl, hrefin.settledNodes, hrefin.invariant.block_eq_iff (fun e => ?_) hkey⟩
      exact (hrefin.settledTransitions.valid.setIndex_lt (place_map_lt _ e.2)).trans_le
        (not_lt.mp hnext)

end

end FullGraphPartition

end Refinement

section FinalStates

variable {nodes : List DFANode} {actions : List ℕ}

theorem lookup_foldl_finalStates (entries : List (DFANode × ℕ)) (map : HashMap (List ℕ) (List ℕ))
    (hnil : map.lookup [] = none) :
    let final := entries.foldl (fun map entry => if entry.1.actions = [] then map
      else map.insert entry.1.actions ((map.lookup entry.1.actions).getD [] ++ [entry.2])) map
    final.lookup [] = none ∧ ∀ actions ≠ [], (final.lookup actions).getD [] =
      (map.lookup actions).getD [] ++
        (entries.filter fun entry => entry.1.actions = actions).map Prod.snd := by
  induction entries generalizing map with
  | nil => exact ⟨hnil, fun actions _ => by simp⟩
  | cons entry entries ih =>
    simp only [foldl_cons]
    by_cases hent : entry.1.actions = []
    · obtain ⟨hnil', hget⟩ := ih map hnil
      rw [if_pos hent]
      refine ⟨hnil', fun actions hne => ?_⟩
      rw [hget actions hne, filter_cons_of_neg]
      simpa [hent] using Ne.symm hne
    · obtain ⟨hnil', hget⟩ := ih (map.insert entry.1.actions
        ((map.lookup entry.1.actions).getD [] ++ [entry.2])) (by
          rw [lookup_insert_eq, if_neg (Ne.symm hent)]
          exact hnil)
      rw [if_neg hent]
      refine ⟨hnil', fun actions hne => ?_⟩
      rw [hget actions hne, lookup_insert_eq]
      by_cases heq : actions = entry.1.actions
      · rw [if_pos heq, filter_cons_of_pos (by simpa using heq.symm), heq]
        simp
      · rw [if_neg heq, filter_cons_of_neg (by simpa using Ne.symm heq)]

theorem lookup_finalStates (nodes : List DFANode) : (finalStates nodes).lookup [] = none ∧
    ∀ actions ≠ [], ((finalStates nodes).lookup actions).getD [] =
      (nodes.zipIdx.filter fun entry => entry.1.actions = actions).map Prod.snd :=
  lookup_foldl_finalStates nodes.zipIdx ∅ (AList.lookup_empty [])

theorem mem_filter_zipIdx {i : ℕ} :
    i ∈ (nodes.zipIdx.filter fun entry => entry.1.actions = actions).map Prod.snd ↔
      ∃ node, nodes[i]? = some node ∧ node.actions = actions := by
  rw [mem_map]
  constructor
  · intro ⟨entry, hent, hi⟩
    obtain ⟨hmem, hacts⟩ := mem_filter.mp hent
    subst hi
    exact ⟨entry.1, mem_zipIdx_iff_getElem?.mp hmem, by simpa using hacts⟩
  · intro ⟨node, hnode, hacts⟩
    exact ⟨(node, i), mem_filter.mpr ⟨mem_zipIdx_iff_getElem?.mpr hnode, by simpa using hacts⟩, rfl⟩

/-- The entries are the nodes with the same actions. -/
theorem mem_pairs_finalStates {indices : List ℕ} (h : (actions, indices) ∈ pairs (finalStates nodes)) :
    actions ≠ [] ∧ indices.Nodup ∧
      ∀ i, i ∈ indices ↔ ∃ node, nodes[i]? = some node ∧ node.actions = actions := by
  obtain ⟨hnil, hget⟩ := lookup_finalStates nodes
  have hmem := mem_pairs.mp h
  have hne : actions ≠ [] := by
    intro heq
    rw [heq] at hmem
    cases hnil.symm.trans hmem
  have hidxs := hget actions hne
  rw [hmem, Option.getD_some] at hidxs
  rw [hidxs]
  refine ⟨hne, ?_, fun i => mem_filter_zipIdx⟩
  · have hsub : ((nodes.zipIdx.filter fun entry => entry.1.actions = actions).map Prod.snd).Sublist
        (nodes.zipIdx.map Prod.snd) := filter_sublist.map _
    refine hsub.nodup ?_
    rw [zipIdx_map_snd]
    exact nodup_range'

/-- Each node with actions has an entry. -/
theorem exists_mem_pairs_finalStates {i : ℕ} {node : DFANode} (hnode : nodes[i]? = some node)
    (hne : node.actions ≠ []) : ∃ indices, (node.actions, indices) ∈ pairs (finalStates nodes) := by
  have hmem := mem_filter_zipIdx.mpr ⟨node, hnode, rfl⟩
  rw [← (lookup_finalStates nodes).2 node.actions hne] at hmem
  cases hcase : (finalStates nodes).lookup node.actions with
  | some indices => exact ⟨indices, mem_pairs.mpr hcase⟩
  | none =>
    rw [hcase] at hmem
    cases hmem

end FinalStates

namespace FullGraphPartition

theorem foldl_markNode (nodes : List ℕ) (graph : FullGraphPartition) : nodes.foldl markNode graph =
      { graph with nodePartition := graph.nodePartition.markAll nodes } := by
  induction nodes generalizing graph with
  | nil => rfl
  | cons node nodes ih =>
    rw [foldl_cons, ih]
    rfl

section ByActions

variable {dfa : DFA} {transitions : List SingularTransition} {graph : FullGraphPartition}
  {h : ValidTransitions dfa.nodes.length transitions}

def actionKey (dfa : DFA) (p : Fin dfa.nodes.length) : List ℕ := dfa.nodes[p].actions

/-- The nodes are split by their actions. -/
theorem Refining.foldl_slots {slots : List (List ℕ × List ℕ)}
    (hslots : ∀ slot ∈ slots, slot ∈ pairs (finalStates dfa.nodes))
    (hrefin : graph.Refining h (actionKey dfa)) (hnext : graph.nextTransitionSetToProcess = 0) :
    let last := slots.foldl splitByActions graph
    last.Refining h (actionKey dfa) ∧ last.nextTransitionSetToProcess = 0 ∧
      last.flattenedTransitions = graph.flattenedTransitions ∧
      ∀ p q : Fin dfa.nodes.length, last.nodePartition.setIndex p = last.nodePartition.setIndex q →
        graph.nodePartition.setIndex p = graph.nodePartition.setIndex q ∧
          ∀ slot ∈ slots, actionKey dfa p = slot.1 ↔ actionKey dfa q = slot.1 := by
  induction slots generalizing graph with
  | nil => exact ⟨hrefin, hnext, rfl, fun p q heq => ⟨heq, nofun⟩⟩
  | cons slot slots ih =>
    obtain ⟨hslot, hslots⟩ := forall_mem_cons.mp hslots
    obtain ⟨-, hnodup, hidxs⟩ := mem_pairs_finalStates hslot
    have hlt : ∀ node ∈ slot.2, node < dfa.nodes.length := by
      intro node hnode
      obtain ⟨found, hfound, -⟩ := (hidxs node).mp hnode
      exact (List.getElem?_eq_some_iff.mp hfound).1
    have hkeys : ∀ p : Fin dfa.nodes.length, (p : ℕ) ∈ slot.2 ↔ actionKey dfa p = slot.1 := by
      intro p
      rw [hidxs, getElem?_eq_getElem p.2]
      simp [actionKey]
    obtain ⟨hrefin', hnext', hsplit⟩ := hrefin.refine_key hnext hlt hnodup (· = slot.1) hkeys
    rw [foldl_cons, splitByActions, foldl_markNode]
    obtain ⟨hlast, hlastNext, hflat, hrest⟩ := ih hslots hrefin' hnext'
    refine ⟨hlast, hlastNext, hflat, fun p q heq => ?_⟩
    obtain ⟨hblock, hall⟩ := hrest p q heq
    obtain ⟨hblock', hfst⟩ := hsplit p q hblock
    exact ⟨hblock', forall_mem_cons.mpr ⟨hfst, hall⟩⟩

section Characters

variable {singular : List (Range ℕ)} (hcreated : graph.Created dfa singular transitions)

include hcreated

/-- A transition on a character is one of its singular range. -/
theorem Created.exists_edge {p : Fin dfa.nodes.length} {c target : ℕ}
    (htgt : dfa.target p c = some target) : ∃ e, hcreated.valid.graph.source e = p ∧
      (hcreated.valid.graph.target e : ℕ) = target ∧
      ∃ range, singular[hcreated.valid.graph.label e]? = some range ∧ range.Contains c := by
  obtain ⟨node, hnode, hget⟩ := Option.bind_eq_some_iff.mp htgt
  have hmem := mem_of_getElem? hnode
  obtain ⟨range, hrng, hcont⟩ := hcreated.singularRanges.covered node hmem c (by
    rw [hget]
    exact Option.some_ne_none target)
  obtain ⟨label, hlabel⟩ := mem_iff_getElem?.mp hrng
  rw [hcreated.singularRanges.lookup_eq range hrng node hmem c hcont] at hget
  have htransition := (hcreated.mem_iff ⟨p, label, target⟩).mpr ⟨node, range, hnode, hlabel, hget⟩
  obtain ⟨e, he, heq⟩ := mem_iff_getElem.mp htransition
  refine ⟨⟨e, he⟩, Fin.ext ?_, ?_, range, ?_, hcont⟩
  · exact congrArg SingularTransition.source heq
  · exact congrArg SingularTransition.target heq
  · exact (congrArg (fun t => singular[SingularTransition.label t]?) heq).trans hlabel

/-- A transition of a singular range is one on each of its characters. -/
theorem Created.target_of_edge (e : Fin transitions.length) {c : ℕ} {range : Range ℕ}
    (hrng : singular[hcreated.valid.graph.label e]? = some range) (hc : range.Contains c) :
    dfa.target (hcreated.valid.graph.source e) c = some (hcreated.valid.graph.target e : ℕ) := by
  obtain ⟨node, range', hnode, hrng', hget⟩ := (hcreated.mem_iff _).mp (getElem_mem e.2)
  have hsame : range' = range := Option.some.inj (hrng'.symm.trans hrng)
  rw [hsame] at hget
  have hnode' : dfa.nodes[(hcreated.valid.graph.source e : ℕ)]? = some node := hnode
  rw [DFA.target, hnode', Option.bind_some, hcreated.singularRanges.lookup_eq range
    (mem_of_getElem? hrng) node (mem_of_getElem? hnode) c hc]
  exact hget

theorem Created.exists_range (e : Fin transitions.length) :
    ∃ range, singular[hcreated.valid.graph.label e]? = some range ∧ range.Contains range.first := by
  obtain ⟨node, range, -, hrng, -⟩ := (hcreated.mem_iff _).mp (getElem_mem e.2)
  exact ⟨range, hrng, le_rfl, hcreated.singularRanges.sorted.nonempty range (mem_of_getElem? hrng)⟩

omit hcreated in
theorem actions_eq (p : Fin dfa.nodes.length) : dfa.actions p = actionKey dfa p := by
  rw [DFA.actions, getElem?_eq_getElem p.2]
  rfl

/-- Nodes are bisimilar by singular ranges exactly when they are by characters. -/
theorem Created.bisimilar_iff (p q : Fin dfa.nodes.length) :
    PartitionRefinement.Bisimilar hcreated.valid.graph (actionKey dfa) p q ↔ dfa.Bisimilar p q := by
  constructor
  · intro ⟨R, hR, hpq⟩
    refine ⟨fun a b => ∃ p q : Fin dfa.nodes.length, a = p ∧ b = q ∧ R p q, ⟨?_, ?_⟩, p, q, rfl, rfl, hpq⟩
    · intro a b ⟨p, q, ha, hb, hpq⟩
      rw [ha, hb, actions_eq, actions_eq]
      exact hR.key_eq hpq
    · intro a b ⟨p, q, ha, hb, hpq⟩ c
      rw [ha, hb]
      cases hp : dfa.target p c with
      | some target =>
        obtain ⟨e, hsrc, htgt, range, hrng, hcont⟩ := hcreated.exists_edge hp
        obtain ⟨e', hsrc', hlabel, hrel⟩ := hR.forth hpq e hsrc
        have hq := hcreated.target_of_edge e' (hlabel ▸ hrng) hcont
        rw [hsrc'] at hq
        rw [hq]
        exact Option.Rel.some ⟨_, _, htgt.symm, rfl, hrel⟩
      | none =>
        cases hq : dfa.target q c with
        | none => exact Option.Rel.none
        | some target =>
          obtain ⟨e', hsrc', -, range, hrng, hcont⟩ := hcreated.exists_edge hq
          obtain ⟨e, hsrc, hlabel, -⟩ := hR.back hpq e' hsrc'
          have hp' := hcreated.target_of_edge e (hlabel ▸ hrng) hcont
          rw [hsrc, hp] at hp'
          cases hp'
  · intro ⟨R, hR, hpq⟩
    have hforth {S : ℕ → ℕ → Prop} (hS : dfa.Bisimulation S) {p q : Fin dfa.nodes.length} (hpq : S p q)
        (e : Fin transitions.length) (hsrc : hcreated.valid.graph.source e = p) :
        ∃ e', hcreated.valid.graph.source e' = q ∧
          hcreated.valid.graph.label e' = hcreated.valid.graph.label e ∧
          S (hcreated.valid.graph.target e) (hcreated.valid.graph.target e') := by
      obtain ⟨range, hrng, hcont⟩ := hcreated.exists_range e
      have hp := hcreated.target_of_edge e hrng hcont
      rw [hsrc] at hp
      have hrel := hS.target_rel hpq range.first
      rw [hp] at hrel
      generalize hq : dfa.target q range.first = found at hrel
      cases hrel with
      | some hrel =>
        obtain ⟨e', hsrc', htgt', range', hrng', hcont'⟩ := hcreated.exists_edge hq
        refine ⟨e', hsrc', ?_, htgt' ▸ hrel⟩
        exact hcreated.singularRanges.sorted.index_eq hrng' hrng hcont' hcont
    refine ⟨fun p q => R p q, ⟨fun hpq => ?_, fun hpq e => hforth hR hpq e,
      fun hpq e' => hforth hR.symm hpq e'⟩, hpq⟩
    rw [← actions_eq, ← actions_eq]
    exact hR.actions_eq hpq

end Characters

end ByActions

end FullGraphPartition

namespace DFAMinimizer

structure PicksBisimilar (dfa : DFA) (relocations : List ℕ) : Prop where
  length_eq : relocations.length = dfa.nodes.length
  lt : ∀ {p}, p < dfa.nodes.length → relocations.getD p 0 < dfa.nodes.length
  idempotent : ∀ {p}, p < dfa.nodes.length →
    relocations.getD (relocations.getD p 0) 0 = relocations.getD p 0
  eq_iff : ∀ {p q}, p < dfa.nodes.length → q < dfa.nodes.length →
    (relocations.getD p 0 = relocations.getD q 0 ↔ dfa.Bisimilar p q)

/-- The relocations are found, and pick one node of each class of bisimilar nodes. -/
theorem exists_relocationVector (order : IterationOrder (List ℕ × List ℕ)) {dfa : DFA}
    (hdfa : dfa.WellFormed)
    (hkill : ∀ node ∈ dfa.nodes, node.isKilled → node.transitions = []) :
    ∃ relocations, relocationVector order dfa = some relocations ∧ PicksBisimilar dfa relocations := by
  obtain ⟨graph, singular, transitions, hnew, hcreated⟩ :=
    FullGraphPartition.exists_create hdfa hkill
  obtain ⟨hsettle, hzero⟩ := Partition.settled_initialized dfa.nodes.length
  have hrefin : graph.Refining hcreated.valid (FullGraphPartition.actionKey dfa) := by
    refine ⟨hcreated.layout, hcreated.nodePartition_eq ▸ hsettle, hcreated.settled, ?_, ?_, ?_⟩
    · intro e e'
      rw [hcreated.nodePartition_eq, hzero, hzero, and_iff_left rfl]
      unfold cordOf
      rw [hcreated.setIndex_eq e e.2, hcreated.setIndex_eq e' e'.2]
      exact Iff.rfl
    · intro p q _
      rw [hcreated.nodePartition_eq, hzero, hzero]
    · intro p q _ e _ hlt
      rw [hcreated.next_eq] at hlt
      exact absurd hlt (Nat.not_lt_zero _)
  set slots := order.order (pairs (finalStates dfa.nodes)) with hslots
  obtain ⟨hsplit, hnext, hflat, hacts⟩ := hrefin.foldl_slots
    (fun slot hslot => order.mem_order.mp hslot) hcreated.next_eq
  have hkey : ∀ p q : Fin dfa.nodes.length,
      (slots.foldl splitByActions graph).nodePartition.setIndex p =
        (slots.foldl splitByActions graph).nodePartition.setIndex q →
      FullGraphPartition.actionKey dfa p = FullGraphPartition.actionKey dfa q := by
    have hent (p : Fin dfa.nodes.length) (hne : FullGraphPartition.actionKey dfa p ≠ []) :
        ∃ slot ∈ slots, FullGraphPartition.actionKey dfa p = slot.1 := by
      obtain ⟨indices, hidxs⟩ :=
        exists_mem_pairs_finalStates (getElem?_eq_getElem p.2) hne
      exact ⟨_, order.mem_order.mpr hidxs, rfl⟩
    intro p q heq
    by_cases hp : FullGraphPartition.actionKey dfa p = []
    · by_contra hne
      obtain ⟨slot, hslot, hkey⟩ := hent q fun hq => hne (hp.trans hq.symm)
      exact hne ((((hacts p q heq).2 slot hslot).mpr hkey).trans hkey.symm)
    · obtain ⟨slot, hslot, hkey⟩ := hent p hp
      exact hkey.trans (((hacts p q heq).2 slot hslot).mp hkey).symm
  have hfuel : transitions.length <
      (slots.foldl splitByActions graph).flattenedTransitions.length + 1 +
        (slots.foldl splitByActions graph).nextTransitionSetToProcess := by
    rw [hflat, hcreated.layout.length_eq]
    omega
  obtain ⟨last, hlast, hsettledLast, hclasses⟩ := hsplit.splitByUniqueTransitions hfuel
    (hnext.trans_le (Nat.zero_le _)) hkey
  have hvalid := hsettledLast.valid
  have hget {p : ℕ} (hp : p < dfa.nodes.length) :
      ((range dfa.nodes.length).map last.nodeReplacement).getD p 0 = last.nodeReplacement p := by
    rw [getD_eq_getElem _ 0 (by simpa using hp), getElem_map, getElem_range]
  have hrepl {p : ℕ} (hp : p < dfa.nodes.length) : last.nodeReplacement p < dfa.nodes.length ∧
      last.nodePartition.setIndex (last.nodeReplacement p) = last.nodePartition.setIndex p :=
    hvalid.firstElement hp
  refine ⟨(range dfa.nodes.length).map last.nodeReplacement, ?_, ⟨by simp, fun hp => ?_,
    fun hp => ?_, fun {p q} hp hq => ?_⟩⟩
  · rw [relocationVector, hnew]
    simp only [Option.bind_eq_bind, Option.bind_some]
    rw [hlast]
    rfl
  · rw [hget hp]
    exact (hrepl hp).1
  · rw [hget hp, hget (hrepl hp).1, FullGraphPartition.nodeReplacement, (hrepl hp).2]
    rfl
  · rw [hget hp, hget hq, ← hcreated.bisimilar_iff ⟨p, hp⟩ ⟨q, hq⟩, ← hclasses]
    constructor
    · intro heq
      have hidx := (hrepl hp).2
      rw [heq, (hrepl hq).2] at hidx
      exact hidx.symm
    · intro heq
      exact congrArg last.nodePartition.firstElementInSet heq

section Relocate

variable {dfa : DFA} {relocations : List ℕ} (h : PicksBisimilar dfa relocations) {p : ℕ}

include h

section

variable (hp : p < dfa.nodes.length)

include hp

theorem PicksBisimilar.bisimilar : dfa.Bisimilar p (relocations.getD p 0) :=
  (h.eq_iff hp (h.lt hp)).mp (h.idempotent hp).symm

/-- A node that is picked keeps its actions and ranges. -/
theorem PicksBisimilar.getElem_relocate : ∃ node, dfa.nodes[relocations.getD p 0]? = some node ∧
      (relocate relocations dfa).nodes[relocations.getD p 0]? = some { node with
        transitions := node.transitions.map fun range =>
          ⟨range.first, range.last, relocations.getD range.data 0⟩ } := by
  have hlt := h.lt hp
  refine ⟨dfa.nodes[relocations.getD p 0], getElem?_eq_getElem hlt, ?_⟩
  rw [relocate, getElem?_mapIdx, getElem?_eq_getElem hlt, Option.map_some,
    if_neg (not_not_intro (h.idempotent hp))]

theorem PicksBisimilar.target_relocate (hdfa : dfa.WellFormed)
    (c : ℕ) : (relocate relocations dfa).target (relocations.getD p 0) c =
      (dfa.target p c).map fun target => relocations.getD target 0 := by
  obtain ⟨node, hnode, hreloc⟩ := h.getElem_relocate hp
  have htgt : (relocate relocations dfa).target (relocations.getD p 0) c =
      (dfa.target (relocations.getD p 0) c).map fun target => relocations.getD target 0 := by
    rw [DFA.target, DFA.target, hnode, hreloc, Option.bind_some, Option.bind_some]
    exact lookup_map_data (relocations.getD · 0) node.transitions c
  obtain ⟨R, hR, hrel⟩ := h.bisimilar hp
  have htgts := hR.target_rel hrel c
  rw [htgt]
  generalize hcase : dfa.target p c = target, hoth : dfa.target (relocations.getD p 0) c = other
    at htgts
  cases htgts with
  | none => rfl
  | some hrel =>
    have heq := (h.eq_iff (hdfa.target_lt hcase) (hdfa.target_lt hoth)).mpr ⟨R, hR, hrel⟩
    rw [Option.map_some, Option.map_some, heq]

theorem PicksBisimilar.actions_relocate :
    (relocate relocations dfa).actions (relocations.getD p 0) = dfa.actions p := by
  obtain ⟨node, hnode, hreloc⟩ := h.getElem_relocate hp
  obtain ⟨R, hR, hrel⟩ := h.bisimilar hp
  rw [hR.actions_eq hrel, DFA.actions, DFA.actions, hnode, hreloc]
  rfl

end

/-- The relocated DFA reads a string to the relocated node. -/
theorem PicksBisimilar.read_relocate (hdfa : dfa.WellFormed) (word : List ℕ) :
    (relocate relocations dfa).read word =
      (dfa.read word).map fun nodeId => relocations.getD nodeId 0 := by
  induction word using reverseRecOn with
  | nil => rfl
  | append_singleton word c ih =>
    rw [DFA.read_append_singleton, DFA.read_append_singleton, ih]
    cases hcase : dfa.read word with
    | none => rfl
    | some nodeId => exact h.target_relocate (hdfa.read_lt word nodeId hcase) hdfa c

end Relocate

/-- Minimizing ends, the minimal DFA reaches nodes with the same actions on the same strings, and
nodes are replaced by one node exactly when they are bisimilar. -/
theorem minimize_merges_bisimilar (order : IterationOrder (List ℕ × List ℕ)) {dfa : DFA}
    (hdfa : dfa.WellFormed) (hkilled : ∀ node ∈ dfa.nodes, node.isKilled = false) :
    ∃ relocations minimized, relocationVector order dfa = some relocations ∧
      minimize order dfa = some minimized ∧
      (∀ word, (minimized.read word).map minimized.actions = (dfa.read word).map dfa.actions) ∧
      ∀ p q, p < dfa.nodes.length → q < dfa.nodes.length →
        (relocations[p]? = relocations[q]? ↔ dfa.Bisimilar p q) := by
  obtain ⟨relocations, hrelocs, hpicks⟩ := exists_relocationVector order hdfa
    fun node hnode hdead => absurd hdead (by rw [hkilled node hnode]; exact nofun)
  refine ⟨relocations, _, hrelocs, by rw [minimize, hrelocs]; rfl, fun word => ?_,
    fun p q hp hq => ?_⟩
  · rw [hpicks.read_relocate hdfa, Option.map_map]
    exact Option.map_congr fun nodeId hread => hpicks.actions_relocate (hdfa.read_lt word nodeId hread)
  · have hget {p : ℕ} (hp : p < dfa.nodes.length) : relocations[p]? = some (relocations.getD p 0) := by
      rw [← hpicks.length_eq] at hp
      rw [getElem?_eq_getElem hp, getD_eq_getElem _ 0 hp]
    rw [hget hp, hget hq, Option.some.injEq]
    exact hpicks.eq_iff hp hq

def twoLetters : DFA where
  nodes := [⟨[], [⟨97, 97, 1⟩, ⟨98, 98, 2⟩], false⟩, ⟨[7], [], false⟩, ⟨[7], [], false⟩]
  root := 0

theorem minimize_merges_twoLetters : ∃ relocations minimized,
    relocationVector .insertion twoLetters = some relocations ∧
      minimize .insertion twoLetters = some minimized ∧
      (minimized.read [98]).map minimized.actions = some [7] ∧ relocations[1]? = relocations[2]? := by
  have hwf : twoLetters.WellFormed := by
    refine ⟨by decide, ?_, by decide⟩
    intro node hnode
    refine ⟨?_, ?_⟩
    all_goals
      revert node
      decide
  obtain ⟨relocations, minimized, hrelocs, hminimize, hread, hiff⟩ :=
    minimize_merges_bisimilar .insertion hwf (by decide)
  refine ⟨relocations, minimized, hrelocs, hminimize, hread [98], (hiff 1 2 (by decide)
    (by decide)).mpr ⟨fun p q => p = q ∨ p = 1 ∧ q = 2, ⟨?_, ?_⟩, .inr ⟨rfl, rfl⟩⟩⟩
  · intro p q hpq
    rcases hpq with heq | ⟨hp, hq⟩
    · rw [heq]
    · rw [hp, hq]
      rfl
  · intro p q hpq c
    rcases hpq with heq | ⟨hp, hq⟩
    · rw [heq]
      cases twoLetters.target q c with
      | none => exact Option.Rel.none
      | some target => exact Option.Rel.some (.inl rfl)
    · rw [hp, hq]
      exact Option.Rel.none

end DFAMinimizer

end WebKit.ContentExtensions
