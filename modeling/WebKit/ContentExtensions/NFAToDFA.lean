import WebKit.ContentExtensions.DFA
import WebKit.ContentExtensions.NFA

/-!
The subset construction. A node of the deterministic automaton stands for a set of
nodes of the nondeterministic one that is closed under epsilon transitions; its
transitions are the merged range lists of the nodes in the set.
-/

namespace WebKit.ContentExtensions

open List RangeMaps Exploration HashMaps

structure ConvertOrders where
  nodeIdSet : ℕ → IterationOrder ℕ
  actions : ℕ → IterationOrder ℕ

def epsilonClosureExcludingSelf (nfa : NFA) (nodeId : ℕ) : Option (List ℕ) :=
  (explore nfa.epsilonTransitionTargets (nfa.nodes.length + 1) ([nodeId], [nodeId])).map tail

def resolveEpsilonClosures (nfa : NFA) : Option (List (List ℕ)) :=
  (range nfa.nodes.length).mapM (epsilonClosureExcludingSelf nfa)

/-- A set gets the epsilon closure of a node only when the node is new in it. -/
def dataConverterWithEpsilonClosure (nfaNodeClosures : List (List ℕ)) :
    DataConverter (List ℕ) (List ℕ) where
  convert targets := targets.foldl
    (fun result nodeId => addAll (add result nodeId) (nfaNodeClosures.getD nodeId [])) []
  extend destination targets := targets.foldl
    (fun result nodeId =>
      if nodeId ∈ result then result
      else addAll (add result nodeId) (nfaNodeClosures.getD nodeId [])) destination

def createCombinedTransition (nfa : NFA) (nfaNodeClosures : List (List ℕ)) (sourceNodeSet : List ℕ) :
    Option (MutableRangeList (List ℕ)) :=
  sourceNodeSet.foldlM (fun combinedRangeList nodeId =>
    combinedRangeList.extend (dataConverterWithEpsilonClosure nfaNodeClosures)
      (nfa.transitionsForNode nodeId)) []

structure UniqueNodeIdSet where
  buffer : List ℕ
  dfaNodeId : ℕ

/-- The comparison with a set looks at the sizes and at one inclusion only. -/
def UniqueNodeIdSet.equals (uniqueNodeIdSet : UniqueNodeIdSet) (nodeIdSet : List ℕ) : Bool :=
  uniqueNodeIdSet.buffer.length = nodeIdSet.length ∧ ∀ nodeId ∈ uniqueNodeIdSet.buffer, nodeId ∈ nodeIdSet

structure Conversion where
  nodes : List DFANode
  uniqueNodeIdSetTable : List UniqueNodeIdSet
  unprocessedNodes : List UniqueNodeIdSet

def maxActionsLength : ℕ := 65535

namespace Conversion

variable (orders : ConvertOrders) (nfa : NFA)

def getOrCreateDFANode (nodeIdSet : List ℕ) (s : Conversion) : Option (ℕ × Conversion) :=
  match s.uniqueNodeIdSetTable.find? fun entry => entry.equals nodeIdSet with
  | some entry => some (entry.dfaNodeId, s)
  | none =>
    let dfaNodeId := s.nodes.length
    let entry : UniqueNodeIdSet := ⟨(orders.nodeIdSet dfaNodeId).order nodeIdSet, dfaNodeId⟩
    let actions := (orders.actions dfaNodeId).order
      (entry.buffer.foldl (fun actions nodeId => addAll actions (nfa.actions nodeId)) [])
    if actions.length ≤ maxActionsLength then
      some (dfaNodeId,
        { nodes := s.nodes ++ [⟨actions, [], false⟩]
          uniqueNodeIdSetTable := s.uniqueNodeIdSetTable ++ [entry]
          unprocessedNodes := s.unprocessedNodes ++ [entry] })
    else none

def addTransition (result : List (Range ℕ) × Conversion) (range : Range (List ℕ)) :
    Option (List (Range ℕ) × Conversion) :=
  (result.2.getOrCreateDFANode orders nfa range.data).map fun target =>
    (result.1 ++ [⟨range.first, range.last, target.1⟩], target.2)

/-- The number of transitions is stored in a byte. -/
def setTransitions (transitions : List (Range ℕ)) (node : DFANode) : DFANode :=
  { node with transitions := transitions.take (transitions.length % 256) }

variable (nfaNodeClosures : List (List ℕ))

def processNode (entry : UniqueNodeIdSet) (s : Conversion) : Option Conversion := do
  let combinedRangeList ← createCombinedTransition nfa nfaNodeClosures entry.buffer
  let result ← combinedRangeList.toList.foldlM (addTransition orders nfa)
    ([], { s with unprocessedNodes := s.unprocessedNodes.dropLast })
  some { result.2 with nodes := result.2.nodes.modify entry.dfaNodeId (setTransitions result.1) }

def loop : ℕ → Conversion → Option Conversion
  | 0, _ => none
  | fuel + 1, s =>
    match s.unprocessedNodes.getLast? with
    | none => some s
    | some entry => (processNode orders nfa nfaNodeClosures entry s).bind
        (loop fuel)

end Conversion

/-- There are at most as many passes of the loop as there are sets of nodes. -/
def NFAToDFA.convert (orders : ConvertOrders) (nfa : NFA) : Option DFA := do
  let nfaNodeClosures ← resolveEpsilonClosures nfa
  let initialSet := addAll [NFA.root] (nfaNodeClosures.getD NFA.root [])
  let initial ← Conversion.getOrCreateDFANode orders nfa initialSet ⟨[], [], []⟩
  let s ← Conversion.loop orders nfa nfaNodeClosures (2 ^ nfa.nodes.length + 1) initial.2
  some ⟨s.nodes, 0⟩

namespace NFA

variable {nfa : NFA}

theorem mem_epsilonTransitionTargets_lt (h : nfa.WellFormed) {nodeId target : ℕ}
    (htgt : target ∈ nfa.epsilonTransitionTargets nodeId) : target < nfa.nodes.length := by
  unfold epsilonTransitionTargets at htgt
  cases hnode : nfa.nodes[nodeId]? with
  | none =>
    rw [hnode] at htgt
    cases htgt
  | some node =>
    rw [hnode] at htgt
    exact h.epsilonTargets node (mem_of_getElem? hnode) target htgt

/-- The epsilon closure of a node are the nodes reachable from it by epsilon transitions. -/
theorem mem_εClosure_iff {nodeId q : ℕ} : q ∈ nfa.automaton.εClosure {nodeId} ↔
    Relation.ReflTransGen (fun p q => q ∈ nfa.epsilonTransitionTargets p) nodeId q := by
  constructor
  · intro h
    induction h with
    | base p hp => exact hp ▸ Relation.ReflTransGen.refl
    | step p q hedge _ ih => exact ih.tail hedge
  · intro h
    induction h with
    | refl => exact εNFA.εClosure.base _ rfl
    | tail _ hedge ih => exact εNFA.εClosure.step _ _ hedge ih

theorem εClosure_lt (h : nfa.WellFormed) {S : Set ℕ} (hS : ∀ p ∈ S, p < nfa.nodes.length) :
    ∀ q ∈ nfa.automaton.εClosure S, q < nfa.nodes.length := by
  intro q hq
  induction hq with
  | base p hp => exact hS p hp
  | step p q hedge _ _ => exact mem_epsilonTransitionTargets_lt h hedge

end NFA

variable {nfa : NFA}

theorem epsilonClosureExcludingSelf_spec (h : nfa.WellFormed) {nodeId : ℕ}
    (hnode : nodeId < nfa.nodes.length) :
    ∃ output, epsilonClosureExcludingSelf nfa nodeId = some output ∧
      ∀ q, q ∈ nfa.automaton.εClosure {nodeId} ↔ q = nodeId ∨ q ∈ output := by
  have hbound : ∀ q, Relation.ReflTransGen (fun p q => q ∈ nfa.epsilonTransitionTargets p) nodeId q →
      q ∈ Finset.range nfa.nodes.length := by
    intro q hq
    rw [Finset.mem_range]
    apply NFA.εClosure_lt h (S := {nodeId}) (fun p hp => hp ▸ hnode) q
    exact NFA.mem_εClosure_iff.mpr hq
  obtain ⟨seen, hexplore, hexplored⟩ := (explored_start nodeId).explore
    (fun _ _ => Iff.rfl) hbound (nfa.nodes.length + 1) (by simp)
  obtain ⟨output, rfl⟩ := prefix_of_explore hexplore
  refine ⟨output, by rw [epsilonClosureExcludingSelf, hexplore]; rfl, fun q => ?_⟩
  rw [NFA.mem_εClosure_iff, ← hexplored.mem_iff]
  exact mem_cons

def ClosuresOf (nfa : NFA) (nfaNodeClosures : List (List ℕ)) : Prop :=
  ∀ nodeId < nfa.nodes.length, ∀ q,
    q ∈ nfa.automaton.εClosure {nodeId} ↔ q = nodeId ∨ q ∈ nfaNodeClosures.getD nodeId []

theorem mapM_eq_some {α β : Type*} {f : α → Option β} {P : α → β → Prop} {l : List α}
    (h : ∀ a ∈ l, ∃ b, f a = some b ∧ P a b) : ∃ l', l.mapM f = some l' ∧ List.Forall₂ P l l' := by
  induction l with
  | nil => exact ⟨[], rfl, List.Forall₂.nil⟩
  | cons a l ih =>
    obtain ⟨hfst, hrest⟩ := forall_mem_cons.mp h
    obtain ⟨b, hb, hP⟩ := hfst
    obtain ⟨l', hl', hforall⟩ := ih hrest
    refine ⟨b :: l', ?_, List.Forall₂.cons hP hforall⟩
    rw [mapM_cons, hb, hl']
    rfl

theorem resolveEpsilonClosures_spec (h : nfa.WellFormed) :
    ∃ nfaNodeClosures, resolveEpsilonClosures nfa = some nfaNodeClosures ∧
      ClosuresOf nfa nfaNodeClosures := by
  obtain ⟨nfaNodeClosures, heq, hforall⟩ := mapM_eq_some (l := range nfa.nodes.length)
    fun nodeId hmem => epsilonClosureExcludingSelf_spec h (mem_range.mp hmem)
  refine ⟨nfaNodeClosures, heq, fun nodeId hnode q => ?_⟩
  have hlen := hforall.length_eq
  rw [length_range] at hlen
  have hget := hforall.get (i := nodeId) (by simpa using hnode) (by omega)
  rw [getD_eq_getElem?_getD, getElem?_eq_getElem (by omega), Option.getD_some]
  simpa only [get_eq_getElem, getElem_range] using hget q

section Converter

variable {nfa : NFA} {closures : List (List ℕ)} {set : List ℕ} {nodeId q : ℕ}

/-- Adding the closure of a node. -/
theorem mem_add_closure (hclos : ClosuresOf nfa closures) (hnode : nodeId < nfa.nodes.length) :
    q ∈ addAll (add set nodeId) (closures.getD nodeId []) ↔
      q ∈ set ∨ q ∈ nfa.automaton.εClosure {nodeId} := by
  rw [mem_addAll, mem_add, or_assoc, hclos nodeId hnode]

def EpsilonClosed (nfa : NFA) (set : List ℕ) : Prop :=
  ∀ q ∈ set, ∀ next ∈ nfa.epsilonTransitionTargets q, next ∈ set

theorem EpsilonClosed.mem_of_mem_εClosure (h : EpsilonClosed nfa set) (hmem : nodeId ∈ set)
    (hq : q ∈ nfa.automaton.εClosure {nodeId}) : q ∈ set := by
  induction hq with
  | base p hp => exact hp ▸ hmem
  | step p q hedge _ ih => exact h p ih q hedge

theorem EpsilonClosed.add_closure (hclos : ClosuresOf nfa closures)
    (h : EpsilonClosed nfa set) (hnode : nodeId < nfa.nodes.length) :
    EpsilonClosed nfa (addAll (add set nodeId) (closures.getD nodeId [])) := by
  intro q hq next hnext
  rw [mem_add_closure hclos hnode] at hq ⊢
  exact hq.imp (fun hold => h q hold next hnext) fun hnew => εNFA.εClosure.step q next hnext hnew

section

variable (hclos : ClosuresOf nfa closures) {targets : List ℕ}
  (htgts : ∀ target ∈ targets, target < nfa.nodes.length)

include hclos htgts

theorem mem_extend {destination : List ℕ} (hclosed : EpsilonClosed nfa destination) (q : ℕ) :
    q ∈ (dataConverterWithEpsilonClosure closures).extend destination targets ↔
      q ∈ destination ∨ ∃ target ∈ targets, q ∈ nfa.automaton.εClosure {target} := by
  unfold dataConverterWithEpsilonClosure
  dsimp only
  induction targets generalizing destination with
  | nil => simp
  | cons nodeId targets ih =>
    obtain ⟨hnode, htgts⟩ := forall_mem_cons.mp htgts
    rw [foldl_cons, exists_mem_cons_iff]
    split_ifs with hmem
    · rw [ih htgts hclosed]
      have hsub := hclosed.mem_of_mem_εClosure hmem (q := q)
      tauto
    · rw [ih htgts (hclosed.add_closure hclos hnode), mem_add_closure hclos hnode, or_assoc]

theorem mem_convert (q : ℕ) : q ∈ (dataConverterWithEpsilonClosure closures).convert targets ↔
      ∃ target ∈ targets, q ∈ nfa.automaton.εClosure {target} := by
  have hfold : ∀ result, q ∈ targets.foldl (fun result nodeId =>
      addAll (add result nodeId) (closures.getD nodeId [])) result ↔
        q ∈ result ∨ ∃ target ∈ targets, q ∈ nfa.automaton.εClosure {target} := by
    induction targets with
    | nil => simp
    | cons nodeId targets ih =>
      obtain ⟨hnode, htgts⟩ := forall_mem_cons.mp htgts
      intro result
      rw [foldl_cons, exists_mem_cons_iff, ih htgts, mem_add_closure hclos hnode, or_assoc]
  exact (hfold []).trans (or_iff_right not_mem_nil)

end

theorem nodup_extend {destination : List ℕ} (h : destination.Nodup) (targets : List ℕ) :
    ((dataConverterWithEpsilonClosure closures).extend destination targets).Nodup := by
  unfold dataConverterWithEpsilonClosure
  dsimp only
  induction targets generalizing destination with
  | nil => exact h
  | cons nodeId targets ih =>
    rw [foldl_cons]
    split_ifs
    · exact ih h
    · exact ih (nodup_addAll (nodup_add h nodeId) _)

theorem nodup_convert (targets : List ℕ) :
    ((dataConverterWithEpsilonClosure closures).convert targets).Nodup := by
  have hfold : ∀ result, result.Nodup → (targets.foldl (fun result nodeId =>
      addAll (add result nodeId) (closures.getD nodeId [])) result).Nodup := by
    induction targets with
    | nil => exact fun result h => h
    | cons nodeId targets ih => exact fun result h => ih _ (nodup_addAll (nodup_add h nodeId) _)
  exact hfold [] nodup_nil

def Denotes (value : Option (List ℕ)) (S : Set ℕ) : Prop :=
  match value with
  | none => S = ∅
  | some data => data.Nodup ∧ data ≠ [] ∧ ∀ q, q ∈ data ↔ q ∈ S

/-- Merging the transitions of one more node into a combined range list. -/
theorem Denotes.combine (hclos : ClosuresOf nfa closures) {value : Option (List ℕ)}
    {S T : Set ℕ} (h : Denotes value S) (hclosed : ∀ q ∈ S, ∀ next ∈ nfa.epsilonTransitionTargets q,
      next ∈ S) {targets : Option (List ℕ)} (hnone : targets = none → T = ∅)
    (hsome : ∀ list, targets = some list → list ≠ [] ∧ (∀ target ∈ list, target < nfa.nodes.length) ∧
      ∀ target, target ∈ list ↔ target ∈ T) :
    Denotes (RangeMaps.combine (dataConverterWithEpsilonClosure closures).convert
      (dataConverterWithEpsilonClosure closures).extend value targets)
        (S ∪ nfa.automaton.εClosure T) := by
  cases targets with
  | none =>
    rw [combine_none_right, hnone rfl, εNFA.εClosure_empty, Set.union_empty]
    exact h
  | some list =>
    obtain ⟨hne, hlt, hmem⟩ := hsome list rfl
    have hT : ∀ q, q ∈ nfa.automaton.εClosure T ↔
        ∃ target ∈ list, q ∈ nfa.automaton.εClosure {target} := by
      intro q
      rw [εNFA.mem_εClosure_iff_exists]
      exact exists_congr fun target => and_congr_left' (hmem target).symm
    obtain ⟨target, htgt⟩ := exists_mem_of_ne_nil list hne
    have htgt' : target ∈ nfa.automaton.εClosure T :=
      εNFA.εClosure.base target ((hmem target).mp htgt)
    cases value with
    | none =>
      have hS : S = ∅ := h
      have hconvert : ∀ q, q ∈ (dataConverterWithEpsilonClosure closures).convert list ↔
          q ∈ S ∪ nfa.automaton.εClosure T := by
        intro q
        rw [hS, Set.empty_union, hT, mem_convert hclos hlt]
      exact ⟨nodup_convert list, ne_nil_of_mem ((hconvert target).mpr (Or.inr htgt')), hconvert⟩
    | some data =>
      obtain ⟨hnodup, -, hdata⟩ := h
      have hdataClosed : EpsilonClosed nfa data := fun q hq next hnext =>
        (hdata next).mpr (hclosed q ((hdata q).mp hq) next hnext)
      have hext : ∀ q, q ∈ (dataConverterWithEpsilonClosure closures).extend data list ↔
          q ∈ S ∪ nfa.automaton.εClosure T := by
        intro q
        rw [mem_extend hclos hlt hdataClosed, hdata, Set.mem_union, hT]
      exact ⟨nodup_extend hnodup list, ne_nil_of_mem ((hext target).mpr (Or.inr htgt')), hext⟩

variable {c : ℕ}

theorem stepSet_closed {S : Set ℕ} {next : ℕ} (hq : q ∈ nfa.automaton.stepSet S c)
    (hnext : next ∈ nfa.epsilonTransitionTargets q) : next ∈ nfa.automaton.stepSet S c := by
  obtain ⟨p, hp, hclosure⟩ := εNFA.mem_stepSet_iff.mp hq
  exact εNFA.mem_stepSet_iff.mpr ⟨p, hp, εNFA.εClosure.step q next hnext hclosure⟩

theorem transitionsForNode_spec (h : nfa.WellFormed) (nodeId : ℕ) :
    Sorted (nfa.transitionsForNode nodeId) ∧ ∀ range ∈ nfa.transitionsForNode nodeId,
      range.last < 128 ∧ range.data ≠ [] ∧ ∀ target ∈ range.data, target < nfa.nodes.length := by
  unfold NFA.transitionsForNode
  cases hnode : nfa.nodes[nodeId]? with
  | none => exact ⟨Sorted.nil, nofun⟩
  | some node =>
    have hmem := mem_of_getElem? hnode
    exact ⟨h.sorted node hmem, fun range hrng =>
      ⟨h.ascii node hmem range hrng, h.targets node hmem range hrng⟩⟩

/-- The targets of a node on a character are the data of its range list there. -/
theorem mem_step_iff (h : nfa.WellFormed) {target : ℕ} :
    target ∈ nfa.automaton.step nodeId (some c) ↔
      ∃ targets ∈ lookup (nfa.transitionsForNode nodeId) c, target ∈ targets :=
  (transitionsForNode_spec h nodeId).1.exists_iff (fun targets => target ∈ targets) c

/-- The combined range list maps each character to the set of nodes that it leads to. -/
theorem createCombinedTransition_spec (h : nfa.WellFormed) (hclos : ClosuresOf nfa closures)
    (sourceNodeSet : List ℕ) :
    ∃ combined, createCombinedTransition nfa closures sourceNodeSet = some combined ∧
      combined.WellFormed ∧ (∀ range ∈ combined.toList, range.last < 128) ∧
      ∀ c, Denotes (lookup combined.toList c)
        (nfa.automaton.stepSet {p | p ∈ sourceNodeSet} c) := by
  induction sourceNodeSet using reverseRecOn with
  | nil =>
    refine ⟨[], rfl, ImmutableNFANodeBuilder.wellFormed_nil, nofun, fun c => ?_⟩
    have hempty : {p : ℕ | p ∈ ([] : List ℕ)} = ∅ := by simp
    rw [hempty, εNFA.stepSet_empty]
    rfl
  | append_singleton done nodeId ih =>
    obtain ⟨combined, heq, hwf, hascii, hden⟩ := ih
    obtain ⟨hsort, htrans⟩ := transitionsForNode_spec h nodeId
    obtain ⟨combined', heq', hwf', hlist⟩ :=
      hwf.extend (dataConverterWithEpsilonClosure closures) hsort
    refine ⟨combined', ?_, hwf', fun range hmem => ?_, fun c => ?_⟩
    · unfold createCombinedTransition at heq ⊢
      rw [foldlM_append, heq]
      simpa using heq'
    · rw [hlist] at hmem
      exact last_lt_of_mem_merge hwf.sorted hsort hascii
        (fun new hnew => (htrans new hnew).1) range hmem
    · have hset : nfa.automaton.stepSet {p | p ∈ done ++ [nodeId]} c =
          nfa.automaton.stepSet {p | p ∈ done} c ∪
            nfa.automaton.εClosure (nfa.automaton.step nodeId (some c)) := by
        ext q
        simp only [εNFA.mem_stepSet_iff, Set.mem_union, Set.mem_ofPred_eq, mem_append,
          mem_singleton, or_and_right, exists_or, exists_eq_left]
      rw [hset, hlist, lookup_merge hwf.sorted hsort]
      refine (hden c).combine hclos (fun q hq next hnext => stepSet_closed hq hnext) ?_ ?_
      · intro hnone
        refine Set.eq_empty_of_forall_notMem fun target htgt => ?_
        obtain ⟨targets, htgts, -⟩ := (mem_step_iff h).mp htgt
        rw [hnone] at htgts
        cases htgts
      · intro targets hsome
        obtain ⟨range, hmem, -, rfl⟩ := exists_of_lookup hsome
        refine ⟨(htrans range hmem).2.1, (htrans range hmem).2.2, fun target => ?_⟩
        rw [mem_step_iff h, hsome]
        simp

end Converter

def UniqueNodeIdSet.set (entry : UniqueNodeIdSet) : Finset ℕ := entry.buffer.toFinset

/-- For lists without repetitions, equal sizes and one inclusion make equal sets. -/
theorem UniqueNodeIdSet.equals_iff {entry : UniqueNodeIdSet} (h : entry.buffer.Nodup)
    {nodeIdSet : List ℕ} (hset : nodeIdSet.Nodup) :
    entry.equals nodeIdSet ↔ entry.set = nodeIdSet.toFinset := by
  unfold equals set
  rw [decide_eq_true_eq]
  constructor
  · intro ⟨hlen, hsub⟩
    refine Finset.eq_of_subset_of_card_le (fun q hq => ?_) ?_
    · exact mem_toFinset.mpr (hsub q (mem_toFinset.mp hq))
    · rw [toFinset_card_of_nodup h, toFinset_card_of_nodup hset, hlen]
  · intro heq
    refine ⟨?_, fun q hq => ?_⟩
    · rw [← toFinset_card_of_nodup h, ← toFinset_card_of_nodup hset, heq]
    · exact mem_toFinset.mp (heq ▸ mem_toFinset.mpr hq)

def ActionsBounded (nfa : NFA) (S : Set ℕ) : Prop :=
  ∀ actions : Finset ℕ, (∀ action ∈ actions, ∃ q ∈ S, action ∈ nfa.actions q) →
    actions.card ≤ maxActionsLength

theorem mem_foldl_actions {buffer initial : List ℕ} {action : ℕ} :
    action ∈ buffer.foldl (fun actions nodeId => addAll actions (nfa.actions nodeId)) initial ↔
      action ∈ initial ∨ ∃ q ∈ buffer, action ∈ nfa.actions q := by
  induction buffer generalizing initial with
  | nil => simp
  | cons nodeId buffer ih =>
    rw [foldl_cons, ih, mem_addAll, exists_mem_cons_iff, or_assoc]

theorem nodup_foldl_actions {buffer initial : List ℕ} (h : initial.Nodup) :
    (buffer.foldl (fun actions nodeId => addAll actions (nfa.actions nodeId)) initial).Nodup := by
  induction buffer generalizing initial with
  | nil => exact h
  | cons nodeId buffer ih => exact ih (nodup_addAll h _)

namespace Conversion

structure Tabulated (nfa : NFA) (s : Conversion) : Prop where
  nodup : ∀ entry ∈ s.uniqueNodeIdSetTable, entry.buffer.Nodup
  identifiers : ∀ (i : ℕ) (entry : UniqueNodeIdSet), s.uniqueNodeIdSetTable[i]? = some entry →
    entry.dfaNodeId = i
  length : s.nodes.length = s.uniqueNodeIdSetTable.length
  actions : ∀ (i : ℕ) (entry : UniqueNodeIdSet) (node : DFANode),
    s.uniqueNodeIdSetTable[i]? = some entry → s.nodes[i]? = some node →
      ∀ action, action ∈ node.actions ↔ ∃ q ∈ entry.set, action ∈ nfa.actions q

def sets (s : Conversion) : List (Finset ℕ) × List (Finset ℕ) :=
  (s.uniqueNodeIdSetTable.map UniqueNodeIdSet.set, s.unprocessedNodes.map UniqueNodeIdSet.set)

structure Extends (s s' : Conversion) (fresh : List UniqueNodeIdSet) (freshNodes : List DFANode) :
    Prop where
  table : s'.uniqueNodeIdSetTable = s.uniqueNodeIdSetTable ++ fresh
  unprocessed : s'.unprocessedNodes = s.unprocessedNodes ++ fresh
  nodes : s'.nodes = s.nodes ++ freshNodes

variable (orders : ConvertOrders) {nfa : NFA} {s : Conversion}

theorem Extends.refl (s : Conversion) : s.Extends s [] [] :=
  ⟨(append_nil _).symm, (append_nil _).symm, (append_nil _).symm⟩

theorem Tabulated.exists_node (h : s.Tabulated nfa) {i : ℕ} {entry : UniqueNodeIdSet}
    (hent : s.uniqueNodeIdSetTable[i]? = some entry) : ∃ node, s.nodes[i]? = some node :=
  ⟨_, getElem?_eq_getElem (h.length ▸ (List.getElem?_eq_some_iff.mp hent).1)⟩

theorem Tabulated.append (h : s.Tabulated nfa) {buffer : List ℕ} (hbuffer : buffer.Nodup)
    {actions : List ℕ} (hacts : ∀ action, action ∈ actions ↔ ∃ q ∈ buffer, action ∈ nfa.actions q) :
    Tabulated nfa
      { nodes := s.nodes ++ [⟨actions, [], false⟩]
        uniqueNodeIdSetTable := s.uniqueNodeIdSetTable ++ [⟨buffer, s.nodes.length⟩]
        unprocessedNodes := s.unprocessedNodes ++ [⟨buffer, s.nodes.length⟩] } := by
  refine ⟨?_, ?_, ?_, ?_⟩
  · exact forall_mem_append.mpr ⟨h.nodup, forall_mem_singleton.mpr hbuffer⟩
  · intro i entry hent
    rcases getElem?_append_singleton hent with hold | ⟨rfl, rfl⟩
    · exact h.identifiers i entry hold
    · exact h.length
  · rw [length_append, length_append, h.length]
    rfl
  · intro i entry node hent hnode action
    rcases getElem?_append_singleton hent with hold | ⟨rfl, rfl⟩
    · have hlt := (List.getElem?_eq_some_iff.mp hold).1
      rw [getElem?_append_left (h.length ▸ hlt)] at hnode
      exact h.actions i entry node hold hnode action
    · rcases getElem?_append_singleton hnode with hold | ⟨-, rfl⟩
      · exact absurd (List.getElem?_eq_some_iff.mp hold).1 (h.length ▸ lt_irrefl _)
      · simp only [hacts, UniqueNodeIdSet.set, mem_toFinset]

/-- The identifier of the entry for a set, which is discovered if it is not in the table. -/
theorem Tabulated.getOrCreateDFANode (h : s.Tabulated nfa) {nodeIdSet : List ℕ}
    (hnodup : nodeIdSet.Nodup) (hbound : ActionsBounded nfa {q | q ∈ nodeIdSet}) :
    ∃ target s' fresh freshNodes, s.getOrCreateDFANode orders nfa nodeIdSet = some (target, s') ∧
      s'.Tabulated nfa ∧ s.Extends s' fresh freshNodes ∧
      s'.sets = discover s.sets nodeIdSet.toFinset ∧
      ∃ entry, s'.uniqueNodeIdSetTable[target]? = some entry ∧ entry.set = nodeIdSet.toFinset := by
  unfold Conversion.getOrCreateDFANode
  cases hfind : s.uniqueNodeIdSetTable.find? fun entry => entry.equals nodeIdSet with
  | some entry =>
    have hmem := mem_of_find?_eq_some hfind
    have hequals : entry.equals nodeIdSet :=
      find?_some (p := fun entry : UniqueNodeIdSet => entry.equals nodeIdSet) hfind
    have hset := (entry.equals_iff (h.nodup entry hmem) hnodup).mp hequals
    obtain ⟨i, hi⟩ := mem_iff_getElem?.mp hmem
    refine ⟨entry.dfaNodeId, s, [], [], rfl, h, .refl s, ?_, entry, ?_, hset⟩
    · rw [discover, if_pos]
      exact mem_map.mpr ⟨entry, hmem, hset⟩
    · rw [h.identifiers i entry hi]
      exact hi
  | none =>
    have hlen : (((orders.actions s.nodes.length).order (((orders.nodeIdSet s.nodes.length).order
        nodeIdSet).foldl (fun actions nodeId => addAll actions (nfa.actions nodeId)) []))).length ≤
          maxActionsLength := by
      rw [((orders.actions s.nodes.length).perm _).length_eq,
        ← toFinset_card_of_nodup (nodup_foldl_actions nodup_nil)]
      refine hbound _ fun action hact => ?_
      obtain ⟨q, hq, hact⟩ :=
        (mem_foldl_actions.mp (mem_toFinset.mp hact)).resolve_left not_mem_nil
      exact ⟨q, (orders.nodeIdSet s.nodes.length).mem_order.mp hq, hact⟩
    have hset : UniqueNodeIdSet.set ⟨(orders.nodeIdSet s.nodes.length).order nodeIdSet, s.nodes.length⟩ =
        nodeIdSet.toFinset :=
      toFinset_eq_of_perm _ _ ((orders.nodeIdSet s.nodes.length).perm nodeIdSet)
    have hnew : nodeIdSet.toFinset ∉ s.uniqueNodeIdSetTable.map UniqueNodeIdSet.set := by
      intro hmem
      obtain ⟨entry, hent, heq⟩ := mem_map.mp hmem
      exact find?_eq_none.mp hfind entry hent
        ((entry.equals_iff (h.nodup entry hent) hnodup).mpr heq)
    rw [if_pos hlen]
    refine ⟨_, _, [_], [_], rfl, h.append ?_ ?_, ⟨rfl, rfl, rfl⟩, ?_, _, ?_, hset⟩
    · exact (orders.nodeIdSet s.nodes.length).nodup_order hnodup
    · intro action
      rw [(orders.actions s.nodes.length).mem_order, mem_foldl_actions, or_iff_right not_mem_nil]
    · unfold discover
      rw [if_neg (show nodeIdSet.toFinset ∉ s.sets.1 from hnew)]
      simp only [sets, map_append, map_cons, map_nil, hset]
    · rw [getElem?_append_right h.length.ge, h.length, Nat.sub_self]
      rfl

variable {ranges : List (Range (List ℕ))}

/-- Each range gets a transition to the node for its set. -/
theorem Tabulated.foldlM_addTransition (h : s.Tabulated nfa)
    (hrngs : ∀ range ∈ ranges, range.data.Nodup ∧ ActionsBounded nfa {q | q ∈ range.data})
    (transitions : List (Range ℕ)) :
    ∃ added s' fresh freshNodes,
      ranges.foldlM (addTransition orders nfa) (transitions, s) = some (transitions ++ added, s') ∧
      s'.Tabulated nfa ∧ s.Extends s' fresh freshNodes ∧
      s'.sets = (ranges.map fun range => range.data.toFinset).foldl discover s.sets ∧
      List.Forall₂ (Range.Rel fun data target => ∃ entry,
        s'.uniqueNodeIdSetTable[target]? = some entry ∧ entry.set = data.toFinset) ranges added := by
  induction ranges generalizing s transitions with
  | nil =>
    exact ⟨[], s, [], [], by rw [append_nil]; rfl, h, .refl s, rfl, List.Forall₂.nil⟩
  | cons range ranges ih =>
    obtain ⟨hrng, hrngs⟩ := forall_mem_cons.mp hrngs
    obtain ⟨target, s₁, fresh₁, freshNodes₁, hget, htabulated₁, hextends₁, hsets₁, entry, hent, hset⟩ :=
      h.getOrCreateDFANode orders hrng.1 hrng.2
    obtain ⟨added, s', fresh, freshNodes, hfold, htab, hext, hsets, hforall⟩ :=
      ih htabulated₁ hrngs (transitions ++ [⟨range.first, range.last, target⟩])
    refine ⟨⟨range.first, range.last, target⟩ :: added, s', fresh₁ ++ fresh, freshNodes₁ ++ freshNodes,
      ?_, htab, ⟨?_, ?_, ?_⟩, ?_, List.Forall₂.cons ⟨rfl, rfl, entry, ?_, hset⟩ hforall⟩
    · rw [foldlM_cons, addTransition, hget]
      simpa using hfold
    · rw [hext.table, hextends₁.table, append_assoc]
    · rw [hext.unprocessed, hextends₁.unprocessed, append_assoc]
    · rw [hext.nodes, hextends₁.nodes, append_assoc]
    · rw [hsets, hsets₁, map_cons, foldl_cons]
    · rw [hext.table]
      exact List.getElem?_append_left (List.getElem?_eq_some_iff.mp hent).1 ▸ hent

def Successor (nfa : NFA) (S T : Finset ℕ) : Prop :=
  T.Nonempty ∧ ∃ c, (T : Set ℕ) = nfa.automaton.stepSet S c

def Leads (nfa : NFA) (s : Conversion) (entry : UniqueNodeIdSet) (c : ℕ) : Option ℕ → Prop
  | none => nfa.automaton.stepSet entry.set c = ∅
  | some target => ∃ entry', s.uniqueNodeIdSetTable[target]? = some entry' ∧
      (entry'.set : Set ℕ) = nfa.automaton.stepSet entry.set c

structure Invariant (nfa : NFA) (start : Finset ℕ) (s : Conversion) : Prop where
  tabulated : s.Tabulated nfa
  root : ∃ entry, s.uniqueNodeIdSetTable[0]? = some entry ∧ entry.set = start
  explored : Explored (Successor nfa) start s.sets.1 s.sets.2
  unprocessed : ∀ entry ∈ s.unprocessedNodes, entry ∈ s.uniqueNodeIdSetTable
  transitions : ∀ (i : ℕ) (entry : UniqueNodeIdSet) (node : DFANode),
    s.uniqueNodeIdSetTable[i]? = some entry → s.nodes[i]? = some node →
      entry ∉ s.unprocessedNodes → Sorted node.transitions ∧
        ∀ c, Leads nfa s entry c (lookup node.transitions c)

theorem coe_set (entry : UniqueNodeIdSet) : {p | p ∈ entry.buffer} = (entry.set : Set ℕ) := by
  ext q
  simp [UniqueNodeIdSet.set]

variable {start : Finset ℕ} {entry : UniqueNodeIdSet}

/-- The sets of a combined range list are the successors of the set. -/
theorem mem_targets_iff (hsort : Sorted ranges)
    (hden : ∀ c, Denotes (lookup ranges c) (nfa.automaton.stepSet entry.set c)) (T : Finset ℕ) :
    T ∈ ranges.map (fun range => range.data.toFinset) ↔ Successor nfa entry.set T := by
  constructor
  · intro hmem
    obtain ⟨range, hrng, rfl⟩ := mem_map.mp hmem
    have hget := hsort.lookup_of_mem hrng ⟨le_rfl, hsort.nonempty range hrng⟩
    have hdenoted := hden range.first
    rw [hget] at hdenoted
    obtain ⟨-, hne, hdata⟩ := hdenoted
    refine ⟨toFinset_nonempty_iff _ |>.mpr hne, range.first, ?_⟩
    ext q
    simp [hdata]
  · intro ⟨hne, c, hT⟩
    have hdenoted := hden c
    cases hget : lookup ranges c with
    | none =>
      rw [hget] at hdenoted
      rw [show nfa.automaton.stepSet entry.set c = ∅ from hdenoted] at hT
      exact absurd (Finset.coe_eq_empty.mp hT) hne.ne_empty
    | some data =>
      rw [hget] at hdenoted
      obtain ⟨range, hrng, -, rfl⟩ := exists_of_lookup hget
      refine mem_map.mpr ⟨range, hrng, ?_⟩
      ext q
      rw [mem_toFinset, hdenoted.2.2 q, ← hT, Finset.mem_coe]

/-- Each set of a combined range list has a bounded number of actions. -/
theorem Invariant.actionsBounded (h : s.Invariant nfa start)
    (hbound : ∀ S, Relation.ReflTransGen (Successor nfa) start S → ActionsBounded nfa S)
    (hent : entry ∈ s.uniqueNodeIdSetTable) (hsort : Sorted ranges)
    (hden : ∀ c, Denotes (lookup ranges c) (nfa.automaton.stepSet entry.set c)) :
    ∀ range ∈ ranges, range.data.Nodup ∧ ActionsBounded nfa {q | q ∈ range.data} := by
  intro range hrng
  have hget := hsort.lookup_of_mem hrng ⟨le_rfl, hsort.nonempty range hrng⟩
  have hdenoted := hden range.first
  rw [hget] at hdenoted
  have hreach := h.explored.reachable entry.set (mem_map_of_mem hent)
  have hnext := (mem_targets_iff hsort hden range.data.toFinset).mp
    (mem_map.mpr ⟨range, hrng, rfl⟩)
  refine ⟨hdenoted.1, fun actions hacts => hbound _ (hreach.tail hnext) actions ?_⟩
  intro action hact
  obtain ⟨q, hq, hact⟩ := hacts action hact
  exact ⟨q, by simpa using hq, hact⟩

/-- What the transitions of a node lead to stays in a larger table. -/
theorem Leads.mono {s s' : Conversion} {fresh : List UniqueNodeIdSet}
    (htable : s'.uniqueNodeIdSetTable = s.uniqueNodeIdSetTable ++ fresh) {c : ℕ} {target : Option ℕ}
    (h : Leads nfa s entry c target) : Leads nfa s' entry c target := by
  cases target with
  | none => exact h
  | some target =>
    obtain ⟨entry', hent', hset⟩ := h
    refine ⟨entry', ?_, hset⟩
    rw [htable, List.getElem?_append_left (List.getElem?_eq_some_iff.mp hent').1]
    exact hent'

/-- The transitions made from a combined range list lead to the sets reached. -/
theorem leads_of_denotes {transitions : List (Range ℕ)}
    (hforall : List.Forall₂ (Range.Rel fun data target => ∃ entry,
      s.uniqueNodeIdSetTable[target]? = some entry ∧ entry.set = data.toFinset) ranges transitions)
    {c : ℕ} (hden : Denotes (lookup ranges c) (nfa.automaton.stepSet entry.set c)) :
    Leads nfa s entry c (lookup transitions c) := by
  have hrel := lookup_of_rel hforall c
  generalize lookup ranges c = value at hrel hden
  generalize lookup transitions c = target at hrel
  cases hrel with
  | none => exact hden
  | some hdata =>
    obtain ⟨entry', hent', hset⟩ := hdata
    refine ⟨entry', hent', ?_⟩
    ext q
    rw [hset, coe_toFinset, ← hden.2.2 q]
    rfl

section

variable (h : s.Invariant nfa start) (hnfa : nfa.WellFormed) {closures : List (List ℕ)}
  (hclos : ClosuresOf nfa closures)
  (hbound : ∀ S, Relation.ReflTransGen (Successor nfa) start S → ActionsBounded nfa S)

include h hnfa hclos hbound

theorem Invariant.processNode
    {rest : List UniqueNodeIdSet} (hunproc : s.unprocessedNodes = rest ++ [entry]) :
    ∃ s', s.processNode orders nfa closures entry = some s' ∧ s'.Invariant nfa start ∧
      s'.sets.1.length + rest.length = s'.sets.2.length + s.sets.1.length := by
  obtain ⟨combined, hcomb, hwf, hascii, hden⟩ :=
    createCombinedTransition_spec hnfa hclos entry.buffer
  rw [coe_set] at hden
  have hsort := hwf.sorted
  have hent : entry ∈ s.uniqueNodeIdSetTable :=
    h.unprocessed entry (hunproc ▸ mem_append_right _ mem_cons_self)
  obtain ⟨i, hi⟩ := mem_iff_getElem?.mp hent
  have htab : Tabulated nfa { s with unprocessedNodes := rest } :=
    ⟨h.tabulated.nodup, h.tabulated.identifiers, h.tabulated.length, h.tabulated.actions⟩
  obtain ⟨added, s', fresh, freshNodes, hfold, htab', hext, hsets, hforall⟩ :=
    htab.foldlM_addTransition orders (h.actionsBounded hbound hent hsort hden) []
  have hexplored := h.explored
  rw [show s.sets.2 = rest.map UniqueNodeIdSet.set ++ [entry.set] by
    rw [sets, hunproc, map_append, map_singleton]] at hexplored
  have hexpand := hexplored.expand (mem_targets_iff hsort hden)
  have hlen : added.length % 256 = added.length := by
    rw [Nat.mod_eq_of_lt]
    have hle := hsort.length_le 0 (fun _ _ => Nat.zero_le _) hascii
    have heq := hforall.length_eq
    omega
  refine ⟨{ s' with nodes := s'.nodes.modify entry.dfaNodeId (setTransitions added) }, ?_,
    ⟨⟨htab'.nodup, htab'.identifiers, ?_, ?_⟩, ?_, ?_, ?_, ?_⟩, ?_⟩
  · unfold Conversion.processNode
    rw [hcomb, hunproc, dropLast_concat]
    simp only [Option.bind_eq_bind, Option.bind_some]
    rw [hfold]
    rfl
  · rw [length_modify]
    exact htab'.length
  · intro k other node hoth hnode
    obtain ⟨old, hold, rfl⟩ := getElem?_modify_eq_some hnode
    have hacts := htab'.actions k other old hoth hold
    split_ifs <;> exact hacts
  · obtain ⟨root, hroot, hset⟩ := h.root
    refine ⟨root, ?_, hset⟩
    rw [hext.table]
    exact List.getElem?_append_left (List.getElem?_eq_some_iff.mp hroot).1 ▸ hroot
  · show Explored (Successor nfa) start s'.sets.1 s'.sets.2
    rw [hsets]
    exact hexpand
  · show ∀ other ∈ s'.unprocessedNodes, other ∈ s'.uniqueNodeIdSetTable
    rw [hext.unprocessed, hext.table]
    refine forall_mem_append.mpr ⟨fun other hoth => mem_append_left _ ?_,
      fun other hoth => mem_append_right _ hoth⟩
    exact h.unprocessed other (hunproc ▸ mem_append_left _ hoth)
  · intro k other node hoth hnode hproc
    have hid : entry.dfaNodeId = i := h.tabulated.identifiers i entry hi
    have hk : s.uniqueNodeIdSetTable[k]? = some other := by
      have hoth' : s'.uniqueNodeIdSetTable[k]? = some other := hoth
      rw [hext.table, getElem?_append] at hoth'
      split_ifs at hoth' with hlt
      · exact hoth'
      · refine absurd ?_ hproc
        rw [hext.unprocessed]
        exact mem_append_right _ (mem_of_getElem? hoth')
    obtain ⟨old, hold, rfl⟩ := getElem?_modify_eq_some hnode
    rw [hid]
    split_ifs with heq
    · subst heq
      cases hi.symm.trans hk
      have htrans : (setTransitions added old).transitions = added := by
        rw [setTransitions, hlen, take_length]
      rw [htrans]
      exact ⟨sorted_of_rel hforall hsort, fun c => leads_of_denotes hforall (hden c)⟩
    · have hlt := (List.getElem?_eq_some_iff.mp hk).1
      rw [hext.nodes, getElem?_append_left (h.tabulated.length ▸ hlt)] at hold
      have hnot : other ∉ s.unprocessedNodes := by
        rw [hunproc, mem_append, mem_singleton]
        rintro (hrest | rfl)
        · refine hproc ?_
          rw [hext.unprocessed]
          exact mem_append_left _ hrest
        · exact heq (hid.symm.trans (h.tabulated.identifiers k other hk))
      obtain ⟨hsort', hleads⟩ := h.transitions k other old hk hold hnot
      exact ⟨hsort', fun c => (hleads c).mono hext.table⟩
  · show s'.sets.1.length + rest.length = s'.sets.2.length + s.sets.1.length
    rw [hsets]
    have hexpanded := length_expand s.sets.1 (rest.map UniqueNodeIdSet.set)
      (combined.toList.map fun range => range.data.toFinset)
    rw [length_map] at hexpanded
    exact hexpanded

theorem Invariant.loop {family : Finset (Finset ℕ)}
    (hfinite : ∀ S, Relation.ReflTransGen (Successor nfa) start S → S ∈ family) {fuel : ℕ}
    (hfuel : family.card + s.sets.2.length < fuel + s.sets.1.length) :
    ∃ s', Conversion.loop orders nfa closures fuel s = some s' ∧ s'.Invariant nfa start ∧
      s'.unprocessedNodes = [] := by
  induction fuel generalizing s with
  | zero =>
    have := h.explored.length_le hfinite
    omega
  | succ fuel ih =>
    unfold Conversion.loop
    rcases eq_nil_or_concat' s.unprocessedNodes with hnil | ⟨rest, entry, hunproc⟩
    · rw [hnil]
      exact ⟨s, rfl, h, hnil⟩
    · rw [hunproc, getLast?_concat]
      obtain ⟨s₁, hprocess, hinv, hlen⟩ :=
        h.processNode orders hnfa hclos hbound hunproc
      have hstack : s.sets.2.length = rest.length + 1 := by
        rw [sets, hunproc, length_map, length_append, length_singleton]
      obtain ⟨s', hloop, hinv', hempty⟩ := ih hinv (by omega)
      refine ⟨s', ?_, hinv', hempty⟩
      simp only [hprocess, Option.bind_some]
      exact hloop

end

end Conversion

open Conversion

section Convert

variable {nfa : NFA} {start : Finset ℕ}

theorem eval_lt (h : nfa.WellFormed) (word : List ℕ) :
    ∀ q ∈ nfa.automaton.eval word, q < nfa.nodes.length := by
  induction word using reverseRecOn with
  | nil =>
    apply NFA.εClosure_lt h
    intro p hp
    obtain rfl : p = 0 := hp
    exact length_pos_iff.mpr h.nonempty
  | append_singleton word c _ =>
    rw [εNFA.eval_append_singleton]
    intro q hq
    obtain ⟨p, -, hclosure⟩ := εNFA.mem_stepSet_iff.mp hq
    refine NFA.εClosure_lt h (fun target htgt => ?_) q hclosure
    obtain ⟨targets, hget, hmem⟩ := (mem_step_iff h).mp htgt
    obtain ⟨range, hrng, -, rfl⟩ := exists_of_lookup hget
    exact ((transitionsForNode_spec h p).2 range hrng).2.2 target hmem

/-- The sets reached from the closure of the root are those reached by strings. -/
theorem exists_eval_of_reachable (hstart : (start : Set ℕ) = nfa.automaton.eval []) {S : Finset ℕ}
    (h : Relation.ReflTransGen (Successor nfa) start S) :
    ∃ word, (S : Set ℕ) = nfa.automaton.eval word := by
  induction h with
  | refl => exact ⟨[], hstart⟩
  | tail _ hnext ih =>
    obtain ⟨word, hword⟩ := ih
    obtain ⟨-, c, hc⟩ := hnext
    exact ⟨word ++ [c], by rw [hc, hword, εNFA.eval_append_singleton]⟩

/-- The deterministic automaton reads a string when the nondeterministic one does, and reaches a node
with the same actions then. -/
structure DFA.Determinizes (dfa : DFA) (nfa : NFA) : Prop where
  defined : ∀ word, (dfa.read word).isSome = true ↔ (nfa.automaton.eval word).Nonempty
  actions : ∀ word nodeId, dfa.read word = some nodeId → ∃ node, dfa.nodes[nodeId]? = some node ∧
    ∀ action, action ∈ node.actions ↔ ∃ q ∈ nfa.automaton.eval word, action ∈ nfa.actions q
  sorted : ∀ node ∈ dfa.nodes, Sorted node.transitions

theorem Conversion.Invariant.read {s : Conversion} (h : s.Invariant nfa start)
    (hempty : s.unprocessedNodes = []) (hstart : (start : Set ℕ) = nfa.automaton.eval [])
    (word : List ℕ) :
    match (⟨s.nodes, 0⟩ : DFA).read word with
    | none => nfa.automaton.eval word = ∅
    | some nodeId => ∃ entry, s.uniqueNodeIdSetTable[nodeId]? = some entry ∧
        (entry.set : Set ℕ) = nfa.automaton.eval word := by
  induction word using reverseRecOn with
  | nil =>
    obtain ⟨entry, hent, hset⟩ := h.root
    exact ⟨entry, hent, hset ▸ hstart⟩
  | append_singleton word c ih =>
    rw [DFA.read_append_singleton, εNFA.eval_append_singleton]
    cases hread : (⟨s.nodes, 0⟩ : DFA).read word with
    | none =>
      rw [hread] at ih
      rw [show nfa.automaton.eval word = ∅ from ih]
      exact εNFA.stepSet_empty c
    | some nodeId =>
      rw [hread] at ih
      obtain ⟨entry, hent, hset⟩ := ih
      obtain ⟨node, hnode⟩ := h.tabulated.exists_node hent
      have hleads := (h.transitions nodeId entry node hent hnode (hempty ▸ not_mem_nil)).2 c
      have htgt : (⟨s.nodes, 0⟩ : DFA).target nodeId c = lookup node.transitions c := by
        rw [DFA.target, hnode, Option.bind_some]
      simp only [Option.bind_some]
      rw [htgt, ← hset]
      cases hget : lookup node.transitions c with
      | none => exact hget ▸ hleads
      | some target => exact hget ▸ hleads

/-- The node for the first set. -/
theorem exists_invariant_start (orders : ConvertOrders) {initialSet : List ℕ} (hnodup : initialSet.Nodup)
    (hbound : ActionsBounded nfa {q | q ∈ initialSet}) :
    ∃ target s, Conversion.getOrCreateDFANode orders nfa initialSet ⟨[], [], []⟩ = some (target, s) ∧
      s.Invariant nfa initialSet.toFinset ∧ s.sets.1.length = s.sets.2.length := by
  have hempty : Tabulated nfa ⟨[], [], []⟩ :=
    ⟨nofun, nofun, rfl, nofun⟩
  obtain ⟨target, s, fresh, freshNodes, hget, htab, hext, hsets, -⟩ :=
    hempty.getOrCreateDFANode orders hnodup hbound
  have hsets' : s.sets = ([initialSet.toFinset], [initialSet.toFinset]) := hsets
  have htable : s.uniqueNodeIdSetTable = fresh := hext.table
  have hunproc : s.unprocessedNodes = fresh := hext.unprocessed
  refine ⟨target, s, hget, ⟨htab, ?_, ?_, ?_, ?_⟩, by rw [hsets']⟩
  · have hfst := congrArg Prod.fst hsets'
    obtain ⟨entry, hent, hset⟩ := map_eq_singleton_iff.mp hfst
    exact ⟨entry, by rw [hent]; rfl, hset⟩
  · rw [hsets']
    exact explored_start _
  · intro entry hent
    rw [htable, ← hunproc]
    exact hent
  · intro i entry node hent _ hproc
    refine absurd ?_ hproc
    rw [hunproc, ← htable]
    exact mem_of_getElem? hent

theorem Conversion.Invariant.determinizes {s : Conversion} (h : s.Invariant nfa start)
    (hempty : s.unprocessedNodes = []) (hstart : (start : Set ℕ) = nfa.automaton.eval []) :
    (⟨s.nodes, 0⟩ : DFA).Determinizes nfa := by
  have hne : start.Nonempty := by
    rw [← Finset.coe_nonempty, hstart]
    exact ⟨NFA.root, εNFA.εClosure.base _ rfl⟩
  refine ⟨fun word => ?_, fun word nodeId hread => ?_, fun node hnode => ?_⟩
  · have hword := h.read hempty hstart word
    cases hread : (⟨s.nodes, 0⟩ : DFA).read word with
    | none =>
      rw [hread] at hword
      rw [show nfa.automaton.eval word = ∅ from hword]
      simp
    | some nodeId =>
      rw [hread] at hword
      obtain ⟨entry, hent, hset⟩ := hword
      have hreach := h.explored.reachable entry.set (mem_map_of_mem (mem_of_getElem? hent))
      rw [← hset, Finset.coe_nonempty]
      refine iff_of_true rfl ?_
      cases hreach with
      | refl => exact hne
      | tail _ hnext => exact hnext.1
  · have hword := h.read hempty hstart word
    rw [hread] at hword
    obtain ⟨entry, hent, hset⟩ := hword
    obtain ⟨node, hnode⟩ := h.tabulated.exists_node hent
    refine ⟨node, hnode, fun action => ?_⟩
    rw [h.tabulated.actions nodeId entry node hent hnode action]
    simp [← hset, UniqueNodeIdSet.set]
  · obtain ⟨i, hi⟩ := mem_iff_getElem?.mp hnode
    obtain ⟨entry, hent⟩ : ∃ entry, s.uniqueNodeIdSetTable[i]? = some entry :=
      ⟨_, List.getElem?_eq_getElem (h.tabulated.length ▸ (List.getElem?_eq_some_iff.mp hi).1)⟩
    exact (h.transitions i entry node hent hi (hempty ▸ not_mem_nil)).1

/-- The conversion ends, with an automaton that determinizes the given one. -/
theorem NFAToDFA.convert_spec (h : nfa.WellFormed)
    (hacts : ∀ word, ActionsBounded nfa (nfa.automaton.eval word)) (orders : ConvertOrders) :
    ∃ dfa, NFAToDFA.convert orders nfa = some dfa ∧ dfa.Determinizes nfa := by
  obtain ⟨closures, hresol, hclos⟩ := resolveEpsilonClosures_spec h
  have hpos : NFA.root < nfa.nodes.length := length_pos_iff.mpr h.nonempty
  have hinit : ∀ q, q ∈ addAll [NFA.root] (closures.getD NFA.root []) ↔
      q ∈ nfa.automaton.eval [] := by
    intro q
    rw [mem_addAll, mem_singleton]
    exact (hclos NFA.root hpos q).symm
  have hnodup := nodup_addAll (nodup_singleton NFA.root) (closures.getD NFA.root [])
  have hstart : ((addAll [NFA.root] (closures.getD NFA.root [])).toFinset : Set ℕ) =
      nfa.automaton.eval [] := by
    ext q
    rw [coe_toFinset]
    exact hinit q
  generalize haddAll : addAll [NFA.root] (closures.getD NFA.root []) = initialSet at *
  have hbound : ∀ S, Relation.ReflTransGen (Successor nfa) initialSet.toFinset S →
      ActionsBounded nfa S := by
    intro S hS
    obtain ⟨word, hword⟩ := exists_eval_of_reachable hstart hS
    exact hword ▸ hacts word
  have hfinite : ∀ S, Relation.ReflTransGen (Successor nfa) initialSet.toFinset S →
      S ∈ (Finset.range nfa.nodes.length).powerset := by
    intro S hS
    obtain ⟨word, hword⟩ := exists_eval_of_reachable hstart hS
    refine Finset.mem_powerset.mpr fun q hq => Finset.mem_range.mpr (eval_lt h word q ?_)
    exact hword ▸ Finset.mem_coe.mpr hq
  obtain ⟨target, s₀, hget, hinv, hlen⟩ :=
    exists_invariant_start orders hnodup (Set.ext hinit ▸ hacts [])
  have hfuel : (Finset.range nfa.nodes.length).powerset.card + s₀.sets.2.length <
      2 ^ nfa.nodes.length + 1 + s₀.sets.1.length := by
    rw [Finset.card_powerset, Finset.card_range]
    omega
  obtain ⟨s, hloop, hinv', hempty⟩ :=
    hinv.loop orders h hclos hbound hfinite hfuel
  refine ⟨⟨s.nodes, 0⟩, ?_, hinv'.determinizes hempty hstart⟩
  simp only [NFAToDFA.convert, hresol, haddAll, hget, hloop, Option.bind_eq_bind, Option.bind_some]

/-- Whatever the builders have built is converted to an automaton that determinizes it. -/
theorem NFAToDFA.convert_build_determinizes (sinkOrders : ℕ → SinkOrders) {calls : List (List BuilderCall)}
    (hne : calls ≠ []) (hcalls : ∀ node ∈ calls, ∀ call ∈ node, call.Valid calls.length)
    (hactions : ∀ word, ActionsBounded (NFA.build sinkOrders calls)
      ((NFA.build sinkOrders calls).automaton.eval word)) (orders : ConvertOrders) :
    ∃ dfa, NFAToDFA.convert orders (NFA.build sinkOrders calls) = some dfa ∧
      dfa.Determinizes (NFA.build sinkOrders calls) :=
  NFAToDFA.convert_spec (NFA.wellFormed_build sinkOrders hne hcalls) hactions orders

end Convert

def epsilonCycle : List (List BuilderCall) :=
  [[.addEpsilonTransition 1, .setActions [7]], [.addEpsilonTransition 0, .addTransition 97 98 1]]

def insertionSinkOrders : ℕ → SinkOrders := fun _ => ⟨fun _ => .insertion, .insertion, .insertion⟩

theorem NFAToDFA.convert_build_epsilonCycle :
    ∃ dfa, NFAToDFA.convert ⟨fun _ => .insertion, fun _ => .insertion⟩
        (NFA.build insertionSinkOrders epsilonCycle) = some dfa ∧
      dfa.Determinizes (NFA.build insertionSinkOrders epsilonCycle) := by
  refine NFAToDFA.convert_build_determinizes insertionSinkOrders (by simp [epsilonCycle]) ?_ ?_ _
  · simp [epsilonCycle, BuilderCall.Valid]
  · intro word actions hacts
    have hsub : actions ⊆ {7} := fun action hact => by
      obtain ⟨q, -, hmem⟩ := hacts action hact
      match q with
      | 0 => exact Finset.mem_singleton.mpr (mem_singleton.mp hmem)
      | 1 => cases hmem
      | _ + 2 => cases hmem
    exact (Finset.card_le_card hsub).trans (by simp [maxActionsLength])

end WebKit.ContentExtensions
