import WebKit.ContentExtensions.DFA
import WebKit.ContentExtensions.MutableRangeList
import WebKit.Foundation.Exploration
import WebKit.Foundation.HashMaps

/-!
The merger of two DFAs. A node of the merged DFA stands for a node of each of them, one of which can
be missing; both are packed into a signature of 64 bits, in which a half of ones means that there is
no node. The nodes are numbered as their signatures are found, and processed from a stack.
-/

namespace WebKit.ContentExtensions

open List Exploration HashMaps RangeMaps

/-- A vector that cannot grow ends the program; the fuel is a bound on the passes of a loop. -/
inductive Abort where
  | outOfFuel
  | outOfMemory

/-- A computation ends with a value as it should be, or there is too little room for it. -/
def Ends {α : Type} (capacity bound : ℕ) (P : α → Prop) (result : Except Abort α) : Prop :=
  (∃ value, result = .ok value ∧ P value) ∨ result = .error .outOfMemory ∧ capacity < bound

section Ends

variable {α β : Type} {capacity bound bound' : ℕ} {P : α → Prop} {Q : β → Prop}
  {result : Except Abort α}

theorem Ends.bind {f : α → Except Abort β} (h : Ends capacity bound P result)
    (hf : ∀ value, P value → Ends capacity bound Q (f value)) :
    Ends capacity bound Q (result.bind f) := by
  rcases h with ⟨value, rfl, hvalue⟩ | ⟨rfl, hlt⟩
  · exact hf value hvalue
  · exact .inr ⟨rfl, hlt⟩

theorem Ends.map {f : α → β} (h : Ends capacity bound P result) (hf : ∀ value, P value → Q (f value)) :
    Ends capacity bound Q (result.map f) := by
  rcases h with ⟨value, rfl, hvalue⟩ | ⟨rfl, hlt⟩
  · exact .inl ⟨_, rfl, hf value hvalue⟩
  · exact .inr ⟨rfl, hlt⟩

theorem Ends.mono (h : Ends capacity bound P result) (hle : bound ≤ bound') :
    Ends capacity bound' P result :=
  h.imp_right fun h => ⟨h.1, h.2.trans_le hle⟩

end Ends

/-- The actions at the node that a string leads to. -/
def DFA.taken (dfa : DFA) (word : List ℕ) : List ℕ := (dfa.read word).elim [] dfa.actions

inductive WhichDFA where
  | A
  | B

abbrev Signature := BitVec 64

structure DFAMerger where
  nodes : List DFANode
  nodeMapping : HashMap Signature ℕ
  unprocessedNodes : List Signature

namespace DFAMerger

def shiftAmount : WhichDFA → ℕ
  | .A => 32
  | .B => 0

def setHalfSignature (whichDFA : WhichDFA) (signature : Signature) (value : BitVec 32) :
    Signature :=
  let mask := 0xffffffff#64 <<< (32 - shiftAmount whichDFA)
  (signature &&& mask) ||| value.setWidth 64 <<< shiftAmount whichDFA

def targetConverter (whichDFA : WhichDFA) : DataConverter Signature ℕ where
  convert target := setHalfSignature whichDFA 0xffffffffffffffff#64 (BitVec.ofNat 32 target)
  extend signature target := setHalfSignature whichDFA signature (BitVec.ofNat 32 target)

def invalidNodeIndex : ℕ := 0xffffffff

def signatureForIndices (aIndex bIndex : ℕ) : Signature :=
  (BitVec.ofNat 32 aIndex).setWidth 64 <<< 32 ||| (BitVec.ofNat 32 bIndex).setWidth 64

def rootSignature (a b : DFA) : Signature := signatureForIndices a.root b.root

def extractIndexA (signature : Signature) : ℕ := ((signature >>> 32).setWidth 32).toNat

def extractIndexB (signature : Signature) : ℕ := (signature.setWidth 32).toNat

def actionsAt (dfa : DFA) (index : ℕ) : List ℕ :=
  if index = invalidNodeIndex then [] else dfa.actions index

variable (capacity : ℕ) (orders : ℕ → IterationOrder ℕ) (a b : DFA)

/-- The number of the actions is stored in two bytes. -/
def mergedActions (order : IterationOrder ℕ) (signature : Signature) : List ℕ :=
  let actions := order.order (addAll (addAll [] (actionsAt a (extractIndexA signature)))
    (actionsAt b (extractIndexB signature)))
  actions.take (actions.length % 65536)

def getOrCreateCombinedNode (newNodeSignature : Signature) (merger : DFAMerger) :
    Except Abort (ℕ × DFAMerger) :=
  match merger.nodeMapping.lookup newNodeSignature with
  | some nodeIndex => .ok (nodeIndex, merger)
  | none =>
    if merger.nodes.length < capacity then
      let newNodeIndex := merger.nodes.length
      .ok (newNodeIndex,
        { nodes := merger.nodes ++ [⟨mergedActions a b (orders newNodeIndex) newNodeSignature, [], false⟩]
          nodeMapping := merger.nodeMapping.insert newNodeSignature newNodeIndex
          unprocessedNodes := merger.unprocessedNodes ++ [newNodeSignature] })
    else .error .outOfMemory

def extendBy (whichDFA : WhichDFA) (dfa : DFA) (index : ℕ)
    (combinedTransitions : MutableRangeList Signature) : Option (MutableRangeList Signature) :=
  if index = invalidNodeIndex then some combinedTransitions
  else combinedTransitions.extend (targetConverter whichDFA)
    (dfa.nodes[index]?.elim [] DFANode.transitions)

def combinedTransitions (signature : Signature) : Option (MutableRangeList Signature) :=
  (extendBy .A a (extractIndexA signature) []).bind (extendBy .B b (extractIndexB signature))

def addTransition (result : List (Range ℕ) × DFAMerger) (range : Range Signature) :
    Except Abort (List (Range ℕ) × DFAMerger) :=
  (result.2.getOrCreateCombinedNode capacity orders a b range.data).map fun target =>
    (result.1 ++ [⟨range.first, range.last, target.1⟩], target.2)

/-- The number of the transitions is stored in a byte. -/
def setTransitions (transitions : List (Range ℕ)) (node : DFANode) : DFANode :=
  { node with transitions := transitions.take (transitions.length % 256) }

def processNode (signature : Signature) (merger : DFAMerger) : Except Abort DFAMerger :=
  match combinedTransitions a b signature with
  | none => .error .outOfFuel
  | some combined => do
    let result ← combined.toList.foldlM (addTransition capacity orders a b)
      ([], { merger with unprocessedNodes := merger.unprocessedNodes.dropLast })
    let sourceNodeId := (result.2.nodeMapping.lookup signature).getD 0
    .ok { result.2 with nodes := result.2.nodes.modify sourceNodeId (setTransitions result.1) }

def loop : ℕ → DFAMerger → Except Abort DFAMerger
  | 0, _ => .error .outOfFuel
  | fuel + 1, merger =>
    match merger.unprocessedNodes.getLast? with
    | none => .ok merger
    | some signature => (processNode capacity orders a b signature merger).bind (loop fuel)

def merge : Except Abort DFA := do
  let start ← getOrCreateCombinedNode capacity orders a b (rootSignature a b) ⟨[], ∅, []⟩
  let merger ← loop capacity orders a b ((a.nodes.length + 1) * (b.nodes.length + 1) + 1) start.2
  .ok ⟨merger.nodes, 0⟩

section Signatures

theorem high_signature (x y : BitVec 32) :
    ((x.setWidth 64 <<< 32 ||| y.setWidth 64) >>> 32).setWidth 32 = x := by
  ext i hi
  have hlt : 32 + i < 64 ∧ i < 64 := by omega
  simp [← BitVec.getLsbD_eq_getElem, hi, hlt]

theorem low_signature (x y : BitVec 32) :
    (x.setWidth 64 <<< 32 ||| y.setWidth 64).setWidth 32 = y := by
  ext i hi
  simp [← BitVec.getLsbD_eq_getElem]

variable {i j : ℕ}

theorem extractIndexA_signatureForIndices (hi : i < 2 ^ 32) :
    extractIndexA (signatureForIndices i j) = i := by
  rw [extractIndexA, signatureForIndices, high_signature, BitVec.toNat_ofNat, Nat.mod_eq_of_lt hi]

theorem extractIndexB_signatureForIndices (hj : j < 2 ^ 32) :
    extractIndexB (signatureForIndices i j) = j := by
  rw [extractIndexB, signatureForIndices, low_signature, BitVec.toNat_ofNat, Nat.mod_eq_of_lt hj]

theorem setHalfSignature_A (k : ℕ) :
    setHalfSignature .A (signatureForIndices i j) (BitVec.ofNat 32 k) = signatureForIndices k j := by
  have hmask : ∀ i < 64, (0xffffffff#64 <<< (32 - 32)).getLsbD i = decide (i < 32) := by decide
  unfold setHalfSignature signatureForIndices shiftAmount
  ext i hi
  simp [← BitVec.getLsbD_eq_getElem, hi]
  grind

theorem setHalfSignature_B (k : ℕ) :
    setHalfSignature .B (signatureForIndices i j) (BitVec.ofNat 32 k) = signatureForIndices i k := by
  have hmask : ∀ i < 64, (0xffffffff#64 <<< (32 - 0)).getLsbD i = decide (32 ≤ i) := by decide
  unfold setHalfSignature signatureForIndices shiftAmount
  ext i hi
  simp [← BitVec.getLsbD_eq_getElem, hi]
  grind

end Signatures

/-- The node with an index, if it is one. -/
def nodeAt (index : ℕ) : Option ℕ := if index = invalidNodeIndex then none else some index

def pack (x y : Option ℕ) : Signature :=
  signatureForIndices (x.getD invalidNodeIndex) (y.getD invalidNodeIndex)

/-- The signature of two nodes, if one of them is there. -/
def packed (x y : Option ℕ) : Option Signature :=
  if x = none ∧ y = none then none else some (pack x y)

def next (signature : Signature) (c : ℕ) : Option Signature :=
  packed ((nodeAt (extractIndexA signature)).bind (a.target · c))
    ((nodeAt (extractIndexB signature)).bind (b.target · c))

/-- The ranges that the transitions of a node are made from. -/
def combinedRanges (signature : Signature) : List (Range Signature) :=
  (combinedTransitions a b signature).elim [] MutableRangeList.toList

def successors (signature : Signature) : List Signature :=
  (combinedRanges a b signature).map Range.data

variable {a b}

section Packing

variable {x y : Option ℕ}

theorem getD_lt (hx : ∀ i ∈ x, i < invalidNodeIndex) : x.getD invalidNodeIndex < 2 ^ 32 := by
  cases x with
  | none => decide
  | some i => exact (hx i rfl).trans (by decide)

theorem nodeAt_getD (hx : ∀ i ∈ x, i < invalidNodeIndex) : nodeAt (x.getD invalidNodeIndex) = x := by
  cases x with
  | none => rfl
  | some i => exact if_neg (hx i rfl).ne

theorem nodeAt_extractIndexA (hx : ∀ i ∈ x, i < invalidNodeIndex) :
    nodeAt (extractIndexA (pack x y)) = x := by
  rw [pack, extractIndexA_signatureForIndices (getD_lt hx), nodeAt_getD hx]

theorem nodeAt_extractIndexB (hy : ∀ j ∈ y, j < invalidNodeIndex) :
    nodeAt (extractIndexB (pack x y)) = y := by
  rw [pack, extractIndexB_signatureForIndices (getD_lt hy), nodeAt_getD hy]

/-- Merging the targets of both nodes packs them into a signature. -/
theorem combine_targets (x y : Option ℕ) :
    combine (targetConverter .B).convert (targetConverter .B).extend
      (combine (targetConverter .A).convert (targetConverter .A).extend none x) y = packed x y := by
  have hones : 0xffffffffffffffff#64 = signatureForIndices invalidNodeIndex invalidNodeIndex := by
    decide
  cases x <;> cases y <;>
    simp [combine, packed, pack, targetConverter, hones, setHalfSignature_A, setHalfSignature_B]

theorem actionsAt_eq (dfa : DFA) (index : ℕ) :
    actionsAt dfa index = (nodeAt index).elim [] dfa.actions := by
  unfold actionsAt nodeAt
  split_ifs <;> rfl

end Packing

end DFAMerger

/-- How many nodes a vector holds, and the actions of the DFAs. An index of a node is no mark of a
missing one, nor makes up a reserved key of the node mapping. -/
structure Limits where
  capacity : ℕ
  actions : Finset ℕ
  capacity_le : capacity ≤ 0xfffffffe
  card_lt : actions.card < 65536

/-- A DFA as the compiler makes them. -/
structure DFA.Combinable (limits : Limits) (dfa : DFA) : Prop extends dfa.WellFormed where
  ascii : ∀ node ∈ dfa.nodes, ∀ range ∈ node.transitions, range.last < 128
  killed : ∀ node ∈ dfa.nodes, node.isKilled → node.transitions = []
  mem_actions : ∀ node ∈ dfa.nodes, ∀ action ∈ node.actions, action ∈ limits.actions
  length_le : dfa.nodes.length ≤ limits.capacity

namespace DFAMerger

variable {capacity : ℕ} {orders : ℕ → IterationOrder ℕ} {limits : Limits} {a b : DFA} {seen : List Signature}
  {signature : Signature}

theorem read_lt_invalidNodeIndex {dfa : DFA} (h : dfa.Combinable limits) (word : List ℕ) :
    ∀ nodeId ∈ dfa.read word, nodeId < invalidNodeIndex := by
  intro nodeId hread
  have hlt := h.read_lt word nodeId hread
  have hle := h.length_le.trans limits.capacity_le
  rw [invalidNodeIndex]
  omega

theorem mem_of_mem_actionsAt {dfa : DFA} (h : dfa.Combinable limits) {index action : ℕ}
    (hmem : action ∈ actionsAt dfa index) : action ∈ limits.actions := by
  unfold actionsAt DFA.actions at hmem
  split_ifs at hmem
  · cases hmem
  · cases hnode : dfa.nodes[index]? with
    | none =>
      rw [hnode] at hmem
      cases hmem
    | some node =>
      rw [hnode] at hmem
      exact h.mem_actions node (mem_of_getElem? hnode) action hmem

section Combined

variable (ha : a.Combinable limits) (hb : b.Combinable limits)

include ha hb

/-- No action is cut off when the number of the actions is stored. -/
theorem mem_mergedActions (order : IterationOrder ℕ) {action : ℕ} :
    action ∈ mergedActions a b order signature ↔
      action ∈ actionsAt a (extractIndexA signature) ∨ action ∈ actionsAt b (extractIndexB signature) := by
  unfold mergedActions
  set merged := order.order (addAll (addAll [] (actionsAt a (extractIndexA signature)))
    (actionsAt b (extractIndexB signature)))
  have hmem {action : ℕ} : action ∈ merged ↔ action ∈ actionsAt a (extractIndexA signature) ∨
      action ∈ actionsAt b (extractIndexB signature) := by
    rw [order.mem_order, mem_addAll, mem_addAll, or_iff_right not_mem_nil]
  have hnodup : merged.Nodup := order.nodup_order (nodup_addAll (nodup_addAll nodup_nil _) _)
  have hlen : merged.length < 65536 := by
    rw [← toFinset_card_of_nodup hnodup]
    refine (Finset.card_le_card fun action hact => ?_).trans_lt limits.card_lt
    exact (hmem.mp (mem_toFinset.mp hact)).elim (mem_of_mem_actionsAt ha) (mem_of_mem_actionsAt hb)
  simp only [Nat.mod_eq_of_lt hlen, take_length, hmem]

omit ha hb in
/-- The targets of a node are put into the signatures that ranges lead to. -/
theorem extendBy_spec {dfa : DFA} (h : dfa.Combinable limits) (whichDFA : WhichDFA) (index : ℕ)
    {transitions : MutableRangeList Signature} (hwf : transitions.WellFormed)
    (hascii : ∀ range ∈ transitions.toList, range.last < 128) :
    ∃ extended, extendBy whichDFA dfa index transitions = some extended ∧ extended.WellFormed ∧
      (∀ range ∈ extended.toList, range.last < 128) ∧ ∀ c, lookup extended.toList c =
        combine (targetConverter whichDFA).convert (targetConverter whichDFA).extend
          (lookup transitions.toList c) ((nodeAt index).bind (dfa.target · c)) := by
  unfold extendBy nodeAt
  split_ifs
  · exact ⟨transitions, rfl, hwf, hascii, fun c => (combine_none_right _).symm⟩
  · have hranges : Sorted (dfa.nodes[index]?.elim [] DFANode.transitions) ∧
        ∀ range ∈ dfa.nodes[index]?.elim [] DFANode.transitions, range.last < 128 := by
      cases hnode : dfa.nodes[index]? with
      | none => exact ⟨Sorted.nil, fun _ hmem => absurd hmem not_mem_nil⟩
      | some node =>
        exact ⟨h.sorted node (mem_of_getElem? hnode), h.ascii node (mem_of_getElem? hnode)⟩
    obtain ⟨extended, hext, hwf', hlist⟩ := hwf.extend (targetConverter whichDFA) hranges.1
    refine ⟨extended, hext, hwf', ?_, fun c => ?_⟩ <;> rw [hlist]
    · exact last_lt_of_mem_merge hwf.sorted hranges.1 hascii hranges.2
    · rw [lookup_merge hwf.sorted hranges.1, Option.bind_some, DFA.target]
      cases dfa.nodes[index]? <;> rfl

/-- The combined ranges lead to the signatures of the targets. -/
theorem combinedRanges_spec (signature : Signature) : Sorted (combinedRanges a b signature) ∧
    (∀ range ∈ combinedRanges a b signature, range.last < 128) ∧
    (∀ c, lookup (combinedRanges a b signature) c = next a b signature c) ∧
    ∃ combined, combinedTransitions a b signature = some combined ∧
      combined.toList = combinedRanges a b signature := by
  obtain ⟨first, hfst, hwf, hascii, hlookup⟩ := extendBy_spec ha .A (extractIndexA signature)
    (MutableRangeList.wellFormed_initializeFrom (targetConverter .A) Sorted.nil)
    fun _ hmem => absurd hmem not_mem_nil
  obtain ⟨combined, hcomb, hwf', hascii', hlookup'⟩ :=
    extendBy_spec hb .B (extractIndexB signature) hwf hascii
  have heq : combinedTransitions a b signature = some combined :=
    (congrArg (Option.bind · _) hfst).trans hcomb
  rw [combinedRanges, heq]
  refine ⟨hwf'.sorted, hascii', fun c => ?_, combined, rfl, rfl⟩
  rw [Option.elim_some, hlookup', hlookup]
  exact combine_targets _ _

theorem mem_successors {target : Signature} :
    target ∈ successors a b signature ↔ ∃ c, next a b signature c = some target := by
  obtain ⟨hsort, -, hlookup, -⟩ := combinedRanges_spec ha hb signature
  rw [successors, mem_map]
  constructor
  · rintro ⟨range, hrng, rfl⟩
    refine ⟨range.first, ?_⟩
    rw [← hlookup]
    exact hsort.lookup_of_mem hrng ⟨le_rfl, hsort.nonempty range hrng⟩
  · rintro ⟨c, hnext⟩
    rw [← hlookup] at hnext
    obtain ⟨range, hrng, -, hdata⟩ := exists_of_lookup hnext
    exact ⟨range, hrng, hdata⟩

end Combined

def Successor (a b : DFA) (signature target : Signature) : Prop :=
  ∃ c, next a b signature c = some target

/-- Ranges that lead to the numbers of their signatures. -/
def numbered (all : List Signature) (ranges : List (Range Signature)) : List (Range ℕ) :=
  ranges.map fun range => ⟨range.first, range.last, all.idxOf range.data⟩

/-- The node for a signature, without its transitions while it waits for them. -/
def nodeOf (orders : ℕ → IterationOrder ℕ) (a b : DFA) (all waiting : List Signature)
    (signature : Signature) : DFANode :=
  ⟨mergedActions a b (orders (all.idxOf signature)) signature,
    if signature ∈ waiting then [] else numbered all (combinedRanges a b signature), false⟩

/-- The merger has seen the signatures that an exploration has seen. All that it will see are
numbered in their order. -/
structure Tracked (capacity : ℕ) (orders : ℕ → IterationOrder ℕ) (a b : DFA)
    (all busy : List Signature) (state : List Signature × List Signature) (merger : DFAMerger) :
    Prop where
  fits : state.1.length ≤ capacity
  stack_eq : merger.unprocessedNodes = state.2
  mapping : ∀ signature, merger.nodeMapping.lookup signature =
    if signature ∈ state.1 then some (all.idxOf signature) else none
  nodes_eq : merger.nodes = state.1.map (nodeOf orders a b all (busy ++ state.2))

section Tracking

variable {all busy rest : List Signature} {state : List Signature × List Signature} {merger : DFAMerger}

/-- The number of a signature, which is discovered if it has not been seen. -/
theorem Tracked.getOrCreateCombinedNode (h : Tracked capacity orders a b all busy state merger)
    (signature : Signature) (hall : (discover state signature).1 <+: all) :
    Ends capacity all.length (fun target => target.1 = all.idxOf signature ∧
        Tracked capacity orders a b all busy (discover state signature) target.2)
      (merger.getOrCreateCombinedNode capacity orders a b signature) := by
  unfold DFAMerger.getOrCreateCombinedNode
  unfold discover at hall ⊢
  rw [h.mapping]
  by_cases hseen : signature ∈ state.1
  · simp only [if_pos hseen]
    exact .inl ⟨_, rfl, rfl, h⟩
  · simp only [if_neg hseen] at hall ⊢
    have hlen : merger.nodes.length = state.1.length := by rw [h.nodes_eq, length_map]
    have hidx : all.idxOf signature = state.1.length := by
      obtain ⟨later, rfl⟩ := hall
      rw [append_assoc, idxOf_append_of_notMem hseen, singleton_append, idxOf_cons_self, Nat.add_zero]
    have hwaits {other : Signature} (hmem : other ∈ state.1) :
        other ∈ busy ++ (state.2 ++ [signature]) ↔ other ∈ busy ++ state.2 := by
      rw [← append_assoc, mem_append, mem_singleton, or_iff_left]
      rintro rfl
      exact hseen hmem
    rw [hlen, ← hidx]
    split_ifs with hroom
    · refine .inl ⟨_, rfl, rfl, ?_, by rw [h.stack_eq], fun other => ?_, ?_⟩
      · rw [length_append, ← hidx]
        exact hroom
      · rw [lookup_insert_eq, h.mapping]
        by_cases heq : other = signature
        · rw [if_pos heq, heq, if_pos (mem_append_right _ mem_cons_self)]
        · simp only [mem_append, mem_singleton, heq, or_false, if_false]
      · rw [map_append, map_singleton, h.nodes_eq]
        refine congrArg₂ (· ++ ·) (map_congr_left fun other hmem => ?_) ?_
        · simp only [nodeOf, hwaits hmem]
        · rw [nodeOf, if_pos (mem_append_right _ (mem_append_right _ mem_cons_self))]
    · have hle := hall.length_le
      rw [length_append, length_singleton, ← hidx] at hle
      exact .inr ⟨rfl, by omega⟩

/-- Each range gets a transition to the number of its signature. -/
theorem Tracked.foldlM_addTransition (h : Tracked capacity orders a b all busy state merger)
    (ranges : List (Range Signature)) (transitions : List (Range ℕ))
    (hall : ((ranges.map Range.data).foldl discover state).1 <+: all) :
    Ends capacity all.length (fun result => result.1 = transitions ++ numbered all ranges ∧
        Tracked capacity orders a b all busy ((ranges.map Range.data).foldl discover state) result.2)
      (ranges.foldlM (addTransition capacity orders a b) (transitions, merger)) := by
  induction ranges generalizing merger state transitions with
  | nil => exact .inl ⟨_, rfl, (append_nil _).symm, h⟩
  | cons range ranges ih =>
    have hfirst := h.getOrCreateCombinedNode range.data ((prefix_foldl_discover _ _).trans hall)
    rw [foldlM_cons]
    refine (hfirst.map (Q := fun result => result.1 = transitions ++
      [⟨range.first, range.last, all.idxOf range.data⟩] ∧ Tracked capacity orders a b all busy
        (discover state range.data) result.2) ?_).bind ?_
    · rintro ⟨target, merger'⟩ ⟨rfl, htrack⟩
      exact ⟨rfl, htrack⟩
    · rintro ⟨added, merger'⟩ ⟨rfl, htrack⟩
      have hmore := ih htrack (transitions ++ [⟨range.first, range.last, all.idxOf range.data⟩]) hall
      rw [append_assoc, singleton_append] at hmore
      exact hmore

theorem modify_map_idxOf {f : Signature → DFANode} {g : DFANode → DFANode} (hnodup : seen.Nodup)
    (hmem : signature ∈ seen) : (seen.map f).modify (seen.idxOf signature) g =
      seen.map fun other => if other = signature then g (f other) else f other := by
  apply ext_getElem?
  intro i
  rw [getElem?_modify, getElem?_map, getElem?_map]
  cases hi : seen[i]? with
  | none => rfl
  | some other =>
    have hiff : seen.idxOf signature = i ↔ other = signature := by
      have hget := getElem?_idxOf hmem
      have hlt := idxOf_lt_length_iff.mpr hmem
      constructor
      · rintro rfl
        exact Option.some.inj (hi.symm.trans hget)
      · rintro rfl
        exact (getElem?_inj hlt hnodup).mp (hget.trans hi.symm)
    simp [hiff]

theorem Tracked.takeLast (h : Tracked capacity orders a b all [] (seen, rest ++ [signature]) merger) :
    Tracked capacity orders a b all [signature] (seen, rest)
      { merger with unprocessedNodes := rest } := by
  have hiff {other : Signature} : other ∈ [] ++ (rest ++ [signature]) ↔ other ∈ [signature] ++ rest := by
    rw [nil_append, mem_append, mem_append, or_comm]
  refine ⟨h.fits, rfl, h.mapping, h.nodes_eq.trans (map_congr_left fun other _ => ?_)⟩
  simp only [nodeOf, hiff]

theorem Tracked.setTransitions (h : Tracked capacity orders a b all [signature] state merger)
    (hall : state.1 <+: all) (hnodup : state.1.Nodup) (hmem : signature ∈ state.1)
    (hnot : signature ∉ state.2) (hlen : (combinedRanges a b signature).length < 256) :
    Tracked capacity orders a b all [] state { merger with
      nodes := merger.nodes.modify (all.idxOf signature)
        (DFAMerger.setTransitions (numbered all (combinedRanges a b signature))) } := by
  have hidx : all.idxOf signature = state.1.idxOf signature := by
    obtain ⟨later, rfl⟩ := hall
    exact idxOf_append_of_mem hmem
  have hcut : (numbered all (combinedRanges a b signature)).length % 256 =
      (numbered all (combinedRanges a b signature)).length := by
    rw [numbered, length_map, Nat.mod_eq_of_lt hlen]
  refine ⟨h.fits, h.stack_eq, h.mapping, ?_⟩
  rw [h.nodes_eq, hidx, modify_map_idxOf hnodup hmem]
  refine map_congr_left fun other _ => ?_
  split_ifs with heq
  · rw [heq, nodeOf, nodeOf, if_neg (show signature ∉ [] ++ state.2 from hnot),
      DFAMerger.setTransitions, hcut, take_length]
  · simp only [nodeOf, singleton_append, mem_cons, heq, false_or, nil_append]

end Tracking

section Running

variable (ha : a.Combinable limits) (hb : b.Combinable limits)

include ha hb

/-- The nodes that a longer string leads to have the next signature. -/
theorem packed_read_append (word : List ℕ) (c : ℕ) :
    packed (a.read (word ++ [c])) (b.read (word ++ [c])) =
      (packed (a.read word) (b.read word)).bind (next a b · c) := by
  rw [DFA.read_append_singleton, DFA.read_append_singleton]
  by_cases hnone : a.read word = none ∧ b.read word = none
  · rw [hnone.1, hnone.2]
    rfl
  · have hpacked : packed (a.read word) (b.read word) = _ := if_neg hnone
    rw [hpacked, Option.bind_some, next, nodeAt_extractIndexA (read_lt_invalidNodeIndex ha word),
      nodeAt_extractIndexB (read_lt_invalidNodeIndex hb word)]

omit ha hb in
theorem packed_root : packed (a.read []) (b.read []) = some (rootSignature a b) :=
  if_neg fun hnone => Option.some_ne_none _ hnone.1

theorem reachable_iff {target : Signature} :
    Relation.ReflTransGen (Successor a b) (rootSignature a b) target ↔
      ∃ word, packed (a.read word) (b.read word) = some target := by
  constructor
  · intro hreach
    induction hreach with
    | refl => exact ⟨[], packed_root⟩
    | tail _ hnext ih =>
      obtain ⟨word, hword⟩ := ih
      obtain ⟨c, hnext⟩ := hnext
      refine ⟨word ++ [c], ?_⟩
      rw [packed_read_append ha hb, hword]
      exact hnext
  · rintro ⟨word, hword⟩
    induction word using reverseRecOn generalizing target with
    | nil => exact Option.some.inj (packed_root.symm.trans hword) ▸ .refl
    | append_singleton word c ih =>
      rw [packed_read_append ha hb] at hword
      obtain ⟨signature, hsig, hnext⟩ := Option.bind_eq_some_iff.mp hword
      exact (ih hsig).tail ⟨c, hnext⟩

/-- There are fewer signatures than pairs of a node or none of each DFA. -/
theorem exists_explored : ∃ all, explore (successors a b)
      ((a.nodes.length + 1) * (b.nodes.length + 1) + 1)
      ([rootSignature a b], [rootSignature a b]) = some all ∧
    Explored (Successor a b) (rootSignature a b) all [] ∧
      all.length < (a.nodes.length + 1) * (b.nodes.length + 1) := by
  set pairs := (Finset.range a.nodes.length).insertNone ×ˢ (Finset.range b.nodes.length).insertNone
  have hcard : (pairs.erase (none, none)).card + 1 = (a.nodes.length + 1) * (b.nodes.length + 1) := by
    rw [Finset.card_erase_add_one (by simp [pairs]), Finset.card_product, Finset.card_insertNone,
      Finset.card_insertNone, Finset.card_range, Finset.card_range]
  have hreach : ∀ target, Relation.ReflTransGen (Successor a b)
      (rootSignature a b) target →
        target ∈ (pairs.erase (none, none)).image fun pair => pack pair.1 pair.2 := by
    intro target hreach
    obtain ⟨word, hword⟩ := (reachable_iff ha hb).mp hreach
    rw [packed, Option.ite_none_left_eq_some] at hword
    refine Finset.mem_image.mpr ⟨(a.read word, b.read word), ?_, Option.some.inj hword.2⟩
    refine Finset.mem_erase.mpr ⟨fun heq => hword.1 (Prod.mk.inj heq), Finset.mem_product.mpr
      ⟨Finset.mem_insertNone.mpr fun i hi => ?_, Finset.mem_insertNone.mpr fun j hj => ?_⟩⟩
    · exact Finset.mem_range.mpr (ha.read_lt word i hi)
    · exact Finset.mem_range.mpr (hb.read_lt word j hj)
  have hle := Finset.card_image_le (s := pairs.erase (none, none)) (f := fun pair => pack pair.1 pair.2)
  obtain ⟨all, hall, hexplored⟩ := (explored_start _).explore
    (fun _ _ => mem_successors ha hb) hreach
      ((a.nodes.length + 1) * (b.nodes.length + 1) + 1) (by rw [length_singleton]; omega)
  refine ⟨all, hall, hexplored, ?_⟩
  have hlen := hexplored.length_le hreach
  omega

variable {all rest : List Signature} {state : List Signature × List Signature} {merger : DFAMerger}

/-- The signature on top of the stack gets its transitions. -/
theorem Tracked.processNode (h : Tracked capacity orders a b all [] (seen, rest ++ [signature]) merger)
    (hexplored : Explored (Successor a b) (rootSignature a b) seen (rest ++ [signature]))
    (hall : ((successors a b signature).foldl discover (seen, rest)).1 <+: all) :
    Ends capacity all.length (Tracked capacity orders a b all []
        ((successors a b signature).foldl discover (seen, rest)))
      (merger.processNode capacity orders a b signature) := by
  obtain ⟨hsort, hascii, -, combined, hcomb, hlist⟩ := combinedRanges_spec ha hb signature
  have hmem : signature ∈ seen := hexplored.stacked _ (mem_append_right _ mem_cons_self)
  have hexpand := hexplored.expand fun _ => mem_successors ha hb
  have hfold := h.takeLast.foldlM_addTransition (combinedRanges a b signature) [] hall
  obtain ⟨fresh, heq, -, hfresh, -⟩ :=
    foldl_discover seen rest (successors a b signature)
  rw [← successors] at hfold
  rw [heq] at hall hexpand hfold ⊢
  unfold DFAMerger.processNode
  rw [hcomb, h.stack_eq, dropLast_concat]
  dsimp only
  rw [hlist]
  refine hfold.bind ?_
  rintro ⟨added, merger'⟩ ⟨rfl, htrack⟩
  have hmem' : signature ∈ seen ++ fresh := mem_append_left _ hmem
  have hnot : signature ∉ rest ++ fresh := by
    rw [mem_append]
    rintro (hrest | hnew)
    · exact (nodup_append.mp hexplored.stackNodup).2.2 _ hrest _ mem_cons_self rfl
    · exact (hfresh _ hnew).1 hmem
  have hcount := hsort.length_le 0 (fun _ _ => Nat.zero_le _) hascii
  refine .inl ⟨_, rfl, ?_⟩
  rw [htrack.mapping, if_pos hmem', Option.getD_some, nil_append]
  exact htrack.setTransitions hall hexpand.nodup hmem' hnot (by omega)

/-- The loop sees what the exploration sees. -/
theorem Tracked.loop {fuel : ℕ} (h : Tracked capacity orders a b all [] state merger)
    (hexplored : Explored (Successor a b) (rootSignature a b) state.1 state.2)
    (hall : explore (successors a b) fuel state =
      some all) :
    Ends capacity all.length (Tracked capacity orders a b all [] (all, []))
      (merger.loop capacity orders a b fuel) := by
  induction fuel generalizing merger state with
  | zero => cases hall
  | succ fuel ih =>
    obtain ⟨seen, stack⟩ := state
    unfold DFAMerger.loop
    rw [h.stack_eq]
    rcases eq_nil_or_concat' stack with rfl | ⟨rest, signature, rfl⟩
    · cases hall
      exact .inl ⟨merger, rfl, h⟩
    · simp only [explore, getLast?_concat, dropLast_concat] at hall ⊢
      exact (h.processNode ha hb hexplored (prefix_of_explore hall)).bind fun merger' htrack =>
        ih htrack (hexplored.expand fun _ => mem_successors ha hb) hall

end Running

section Merged

variable (ha : a.Combinable limits) (hb : b.Combinable limits) {all : List Signature}
  (hexplored : Explored (Successor a b) (rootSignature a b) all [])

/-- The DFA whose nodes are numbered in an order of the signatures. -/
def numberedDFA (orders : ℕ → IterationOrder ℕ) (a b : DFA) (all : List Signature) : DFA where
  nodes := all.map (nodeOf orders a b all [])
  root := 0

theorem getElem?_numberedDFA (hmem : signature ∈ all) :
    (numberedDFA orders a b all).nodes[all.idxOf signature]? =
      some ⟨mergedActions a b (orders (all.idxOf signature)) signature,
        numbered all (combinedRanges a b signature), false⟩ := by
  rw [numberedDFA, getElem?_map, getElem?_idxOf hmem]
  rfl

include ha hb hexplored

theorem mem_of_packed {word : List ℕ}
    (hpacked : packed (a.read word) (b.read word) = some signature) : signature ∈ all :=
  hexplored.mem_iff.mpr ((reachable_iff ha hb).mpr ⟨word, hpacked⟩)

/-- Reading a string leads to the node for the nodes that it leads to in both DFAs. -/
theorem read_numberedDFA (hroot : [rootSignature a b] <+: all) (word : List ℕ) :
    (numberedDFA orders a b all).read word =
      (packed (a.read word) (b.read word)).map (all.idxOf ·) := by
  induction word using reverseRecOn with
  | nil =>
    obtain ⟨rest, rfl⟩ := hroot
    rw [packed_root, Option.map_some, singleton_append, idxOf_cons_self]
    rfl
  | append_singleton word c ih =>
    rw [DFA.read_append_singleton, ih, packed_read_append ha hb]
    cases hpacked : packed (a.read word) (b.read word) with
    | none => rfl
    | some signature =>
      rw [Option.map_some, Option.bind_some, Option.bind_some, DFA.target,
        getElem?_numberedDFA (mem_of_packed ha hb hexplored hpacked), Option.bind_some, numbered,
        lookup_map_data (all.idxOf ·), (combinedRanges_spec ha hb signature).2.2.1]

theorem mem_taken_numberedDFA (hroot : [rootSignature a b] <+: all) (word : List ℕ)
    (action : ℕ) : action ∈ (numberedDFA orders a b all).taken word ↔
      action ∈ a.taken word ∨ action ∈ b.taken word := by
  rw [DFA.taken, read_numberedDFA ha hb hexplored hroot, DFA.taken, DFA.taken]
  by_cases hnone : a.read word = none ∧ b.read word = none
  · rw [hnone.1, hnone.2]
    simp [packed]
  · have hpacked : packed (a.read word) (b.read word) = _ := if_neg hnone
    rw [hpacked, Option.map_some, Option.elim_some, DFA.actions,
      getElem?_numberedDFA (mem_of_packed ha hb hexplored hpacked), Option.elim_some,
      mem_mergedActions ha hb, actionsAt_eq, actionsAt_eq,
      nodeAt_extractIndexA (read_lt_invalidNodeIndex ha word),
      nodeAt_extractIndexB (read_lt_invalidNodeIndex hb word)]

theorem combinable_numberedDFA (hfits : all.length ≤ limits.capacity) :
    (numberedDFA orders a b all).Combinable limits := by
  have hlen : (numberedDFA orders a b all).nodes.length = all.length := length_map _
  refine ⟨⟨?_, forall_mem_map.mpr fun signature _ => ?_, forall_mem_map.mpr fun signature hmem =>
    forall_mem_map.mpr fun range hrng => ?_⟩, forall_mem_map.mpr fun signature _ =>
    forall_mem_map.mpr fun range hrng => ?_, forall_mem_map.mpr fun _ _ hkilled => ?_,
    forall_mem_map.mpr fun signature _ action hact => ?_, hlen ▸ hfits⟩
  · rw [hlen]
    exact length_pos_of_mem hexplored.start_mem
  · exact (combinedRanges_spec ha hb signature).1.map_data (all.idxOf ·)
  · rw [hlen, idxOf_lt_length_iff]
    exact (hexplored.expanded _ hmem).resolve_left not_mem_nil _
      ((mem_successors ha hb).mp (mem_map_of_mem hrng))
  · exact (combinedRanges_spec ha hb signature).2.1 range hrng
  · cases hkilled
  · exact ((mem_mergedActions ha hb _).mp hact).elim (mem_of_mem_actionsAt ha)
      (mem_of_mem_actionsAt hb)

end Merged

/-- Merging ends with a DFA that takes the actions of both. -/
theorem merge_spec (ha : a.Combinable limits) (hb : b.Combinable limits)
    (orders : ℕ → IterationOrder ℕ) :
    Ends limits.capacity ((a.nodes.length + 1) * (b.nodes.length + 1)) (fun merged =>
        merged.Combinable limits ∧
        merged.nodes.length + 1 ≤ (a.nodes.length + 1) * (b.nodes.length + 1) ∧
        ∀ word action, action ∈ merged.taken word ↔ action ∈ a.taken word ∨ action ∈ b.taken word)
      (merge limits.capacity orders a b) := by
  obtain ⟨all, hall, hexplored, hlen⟩ := exists_explored ha hb
  have hroot := prefix_of_explore hall
  have hempty : Tracked limits.capacity orders a b all [] ([], []) ⟨[], ∅, []⟩ :=
    ⟨Nat.zero_le _, rfl, fun _ => AList.lookup_empty _, rfl⟩
  refine Ends.mono ((hempty.getOrCreateCombinedNode (rootSignature a b) hroot).bind fun start hstart =>
    (hstart.2.loop ha hb (explored_start _) hall).bind ?_) hlen.le
  intro merger hdone
  refine .inl ⟨_, rfl, ?_⟩
  rw [hdone.nodes_eq]
  exact ⟨combinable_numberedDFA ha hb hexplored hdone.fits, (length_map _).symm ▸ hlen,
    mem_taken_numberedDFA ha hb hexplored hroot⟩

end DFAMerger

end WebKit.ContentExtensions
