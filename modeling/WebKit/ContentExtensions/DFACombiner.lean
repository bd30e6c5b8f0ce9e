import WebKit.ContentExtensions.DFAMerger
import WebKit.ContentExtensions.DFAMinimizer

/-!
The combiner of DFAs. It minimizes every DFA that is added, hands out the large ones, and merges
the others two at a time; a merged DFA is handed out when it is large enough, and is otherwise
merged again. What is handed out takes the same actions as what was added.
-/

namespace WebKit.ContentExtensions

open List HashMaps RangeMaps

def DFA.graphSize (dfa : DFA) : ℕ := dfa.nodes.countP fun node => !node.isKilled

/-- The orders of the hash tables that are used in a pass of the loop, by the passes left. -/
structure CombineOrders where
  actions : ℕ → ℕ → IterationOrder ℕ
  finalStates : ℕ → IterationOrder (List ℕ × List ℕ)

namespace DFACombiner

def minimize (order : IterationOrder (List ℕ × List ℕ)) (dfa : DFA) : Except Abort DFA :=
  match DFAMinimizer.minimize order dfa with
  | some minimized => .ok minimized
  | none => .error .outOfFuel

def addDFA (dfas : List DFA) (added : IterationOrder (List ℕ × List ℕ) × DFA) :
    Except Abort (List DFA) :=
  (minimize added.1 added.2).map fun minimized => dfas ++ [minimized]

variable (capacity minimumSize : ℕ) (orders : CombineOrders)

def mergeAndMinimize (fuel : ℕ) (a b : DFA) (isLast : Bool) : Except Abort DFA :=
  (DFAMerger.merge capacity (orders.actions fuel) a b).bind fun c =>
    if c.graphSize > minimumSize ∨ isLast then minimize (orders.finalStates fuel) c else .ok c

/-- The DFAs handed out by the loop; the last DFA of the vector comes first. -/
def combineLoop : ℕ → List DFA → Except Abort (List DFA)
  | 0, _ => .error .outOfFuel
  | _ + 1, [] => .ok []
  | _ + 1, [dfa] => .ok [dfa]
  | fuel + 1, a :: b :: rest =>
    (mergeAndMinimize capacity minimumSize orders fuel a b rest.isEmpty).bind fun c =>
      if c.graphSize > minimumSize then (combineLoop fuel rest).map fun handled => c :: handled
      else combineLoop fuel (c :: rest)

/-- The DFAs in the order in which they are handed out; the large ones go first. -/
def combineDFAs (dfas : List DFA) : Except Abort (List DFA) :=
  let large := dfas.reverse.filter fun dfa => dfa.graphSize > minimumSize
  let small := dfas.reverse.filter fun dfa => ¬dfa.graphSize > minimumSize
  (combineLoop capacity minimumSize orders (small.length + 1) small).map fun handled =>
    large ++ handled

def run (added : List (IterationOrder (List ℕ × List ℕ) × DFA)) : Except Abort (List DFA) :=
  (added.foldlM addDFA []).bind (combineDFAs capacity minimumSize orders)

/-- One of the DFAs takes an action on a string. -/
def Takes (dfas : List DFA) (word : List ℕ) (action : ℕ) : Prop :=
  ∃ dfa ∈ dfas, action ∈ dfa.taken word

/-- How many nodes merging the DFAs can lead to. -/
def sizeBound (dfas : List DFA) : ℕ := (dfas.map fun dfa => dfa.nodes.length + 1).prod

section Steps

variable {limits : Limits} {a b dfa : DFA} {dfas : List DFA}

theorem takes_cons {word : List ℕ} {action : ℕ} :
    Takes (dfa :: dfas) word action ↔ action ∈ dfa.taken word ∨ Takes dfas word action :=
  exists_mem_cons_iff _ _ _

theorem sizeBound_cons (dfa : DFA) (dfas : List DFA) :
    sizeBound (dfa :: dfas) = (dfa.nodes.length + 1) * sizeBound dfas := by
  rw [sizeBound, map_cons, prod_cons]
  rfl

theorem sizeBound_pos (dfas : List DFA) : 0 < sizeBound dfas :=
  prod_pos (forall_mem_map.mpr fun _ _ => Nat.succ_pos _)

theorem sizeBound_filter_le (p : DFA → Bool) (dfas : List DFA) :
    sizeBound (dfas.filter p) ≤ sizeBound dfas := by
  induction dfas with
  | nil => exact le_rfl
  | cons dfa dfas ih =>
    rw [filter_cons, sizeBound_cons]
    split_ifs
    · rw [sizeBound_cons]
      exact Nat.mul_le_mul_left _ ih
    · exact ih.trans (Nat.le_mul_of_pos_left _ (Nat.succ_pos _))

theorem forall_mem_relocate {relocations : List ℕ} {P : DFANode → Prop} (hkilled : P ⟨[], [], true⟩)
    (h : ∀ node ∈ dfa.nodes, P { node with transitions := node.transitions.map fun range =>
      ⟨range.first, range.last, relocations.getD range.data 0⟩ }) :
    ∀ node ∈ (DFAMinimizer.relocate relocations dfa).nodes, P node := by
  intro node hnode
  obtain ⟨i, hi, rfl⟩ := mem_mapIdx.mp hnode
  split_ifs
  · exact hkilled
  · exact h _ (getElem_mem hi)

theorem combinable_relocate {relocations : List ℕ} (hdfa : dfa.Combinable limits)
    (h : DFAMinimizer.PicksBisimilar dfa relocations) :
    (DFAMinimizer.relocate relocations dfa).Combinable limits := by
  have hlen : (DFAMinimizer.relocate relocations dfa).nodes.length = dfa.nodes.length := length_mapIdx
  refine ⟨⟨hlen ▸ h.lt hdfa.root_lt, ?_, ?_⟩, ?_, ?_, ?_, hlen ▸ hdfa.length_le⟩
  · exact forall_mem_relocate Sorted.nil fun node hnode =>
      (hdfa.sorted node hnode).map_data (relocations.getD · 0)
  · refine forall_mem_relocate (fun _ hmem => absurd hmem not_mem_nil) fun node hnode =>
      forall_mem_map.mpr fun range hrng => ?_
    exact hlen ▸ h.lt (hdfa.targets node hnode range hrng)
  · exact forall_mem_relocate (fun _ hmem => absurd hmem not_mem_nil) fun node hnode =>
      forall_mem_map.mpr (hdfa.ascii node hnode)
  · refine forall_mem_relocate (fun _ => rfl) fun node hnode hkilled => ?_
    rw [hdfa.killed node hnode hkilled, map_nil]
  · exact forall_mem_relocate (fun _ hmem => absurd hmem not_mem_nil) hdfa.mem_actions

/-- Minimizing ends, and keeps the number of nodes and the actions taken on every string. -/
theorem minimize_spec (order : IterationOrder (List ℕ × List ℕ)) (h : dfa.Combinable limits) :
    ∃ minimized, minimize order dfa = .ok minimized ∧ minimized.Combinable limits ∧
      minimized.nodes.length = dfa.nodes.length ∧ ∀ word, minimized.taken word = dfa.taken word := by
  obtain ⟨relocations, hrelocs, hpicks⟩ :=
    DFAMinimizer.exists_relocationVector order h.toWellFormed h.killed
  refine ⟨DFAMinimizer.relocate relocations dfa, ?_, combinable_relocate h hpicks, length_mapIdx,
    fun word => ?_⟩
  · rw [minimize, DFAMinimizer.minimize, hrelocs]
    rfl
  · rw [DFA.taken, DFA.taken, hpicks.read_relocate h.toWellFormed]
    cases hread : dfa.read word with
    | none => rfl
    | some nodeId => exact hpicks.actions_relocate (h.read_lt word nodeId hread)

/-- The DFA that takes the place of two others takes their actions. -/
theorem mergeAndMinimize_spec (ha : a.Combinable limits) (hb : b.Combinable limits) (fuel : ℕ)
    (isLast : Bool) : Ends limits.capacity ((a.nodes.length + 1) * (b.nodes.length + 1)) (fun c =>
        c.Combinable limits ∧ c.nodes.length + 1 ≤ (a.nodes.length + 1) * (b.nodes.length + 1) ∧
        ∀ word action, action ∈ c.taken word ↔ action ∈ a.taken word ∨ action ∈ b.taken word)
      (mergeAndMinimize limits.capacity minimumSize orders fuel a b isLast) := by
  refine (DFAMerger.merge_spec ha hb (orders.actions fuel)).bind ?_
  rintro merged ⟨hmerged, hlen, htaken⟩
  split_ifs
  · obtain ⟨minimized, hmin, hcomb, hlen', htaken'⟩ :=
      minimize_spec (orders.finalStates fuel) hmerged
    exact .inl ⟨minimized, hmin, hcomb, hlen' ▸ hlen, fun word action => htaken' word ▸ htaken word action⟩
  · exact .inl ⟨merged, rfl, hmerged, hlen, htaken⟩

theorem combineLoop_spec {fuel : ℕ} (hdfas : ∀ dfa ∈ dfas, dfa.Combinable limits)
    (hfuel : dfas.length < fuel) : Ends limits.capacity (sizeBound dfas)
      (fun handled => ∀ word action, Takes handled word action ↔ Takes dfas word action)
      (combineLoop limits.capacity minimumSize orders fuel dfas) := by
  induction fuel generalizing dfas with
  | zero => cases hfuel
  | succ fuel ih =>
    rcases dfas with _ | ⟨a, _ | ⟨b, rest⟩⟩
    · exact .inl ⟨[], rfl, fun _ _ => .rfl⟩
    · exact .inl ⟨[a], rfl, fun _ _ => .rfl⟩
    · obtain ⟨ha, hb, hrest⟩ := by simpa only [forall_mem_cons] using hdfas
      simp only [length_cons] at hfuel
      have hbound : sizeBound (a :: b :: rest) =
          (a.nodes.length + 1) * (b.nodes.length + 1) * sizeBound rest := by
        rw [sizeBound_cons, sizeBound_cons, Nat.mul_assoc]
      unfold combineLoop
      refine ((mergeAndMinimize_spec minimumSize orders ha hb fuel rest.isEmpty).mono ?_).bind ?_
      · rw [hbound]
        exact Nat.le_mul_of_pos_right _ (sizeBound_pos rest)
      · rintro c ⟨hc, hlen, htaken⟩
        have hmerged : ∀ word action, Takes (c :: rest) word action ↔
            Takes (a :: b :: rest) word action := fun word action => by
          rw [takes_cons, takes_cons, takes_cons, htaken, or_assoc]
        split_ifs
        · refine ((ih hrest (by omega)).mono ?_).map fun handled htakes word action => ?_
          · rw [hbound]
            exact Nat.le_mul_of_pos_left _ (Nat.mul_pos (Nat.succ_pos _) (Nat.succ_pos _))
          · rw [← hmerged, takes_cons, takes_cons, htakes]
        · simp only [← hmerged]
          refine (ih (forall_mem_cons.mpr ⟨hc, hrest⟩) (by rw [length_cons]; omega)).mono ?_
          rw [hbound, sizeBound_cons]
          exact Nat.mul_le_mul_right _ hlen

theorem combineDFAs_spec (hdfas : ∀ dfa ∈ dfas, dfa.Combinable limits) :
    Ends limits.capacity (sizeBound dfas)
      (fun handled => ∀ word action, Takes handled word action ↔ Takes dfas word action)
      (combineDFAs limits.capacity minimumSize orders dfas) := by
  have hperm : sizeBound dfas.reverse = sizeBound dfas := ((reverse_perm dfas).map _).prod_eq
  have hsmall : ∀ dfa ∈ dfas.reverse.filter (fun dfa => ¬dfa.graphSize > minimumSize),
      dfa.Combinable limits := fun dfa hmem => hdfas dfa (mem_reverse.mp (mem_of_mem_filter hmem))
  refine ((combineLoop_spec minimumSize orders hsmall (Nat.lt_succ_self _)).mono
    ((sizeBound_filter_le _ _).trans hperm.le)).map fun handled htakes word action => ?_
  have htake : (∃ dfa ∈ handled, action ∈ dfa.taken word) ↔ _ := htakes word action
  simp only [Takes, mem_append, or_and_right, exists_or, htake, mem_filter, mem_reverse,
    decide_eq_true_eq]
  simp only [← exists_or, ← or_and_right, ← and_or_left, em, and_true]

/-- The DFAs of a combiner take the actions of the DFAs that were added. -/
theorem foldlM_addDFA {added : List (IterationOrder (List ℕ × List ℕ) × DFA)}
    (hadded : ∀ entry ∈ added, entry.2.Combinable limits)
    (hdfas : ∀ dfa ∈ dfas, dfa.Combinable limits) :
    ∃ minimized, added.foldlM addDFA dfas = .ok (dfas ++ minimized) ∧
      (∀ dfa ∈ dfas ++ minimized, dfa.Combinable limits) ∧
      sizeBound minimized = sizeBound (added.map Prod.snd) ∧
      ∀ word action, Takes minimized word action ↔ Takes (added.map Prod.snd) word action := by
  induction added generalizing dfas with
  | nil => exact ⟨[], by rw [append_nil]; rfl, by rwa [append_nil], rfl, fun _ _ => .rfl⟩
  | cons entry added ih =>
    obtain ⟨hentry, hadded⟩ := forall_mem_cons.mp hadded
    obtain ⟨first, hmin, hcomb, hlen, htaken⟩ := minimize_spec entry.1 hentry
    obtain ⟨minimized, hfold, hall, hsize, htakes⟩ := ih hadded
      (forall_mem_append.mpr ⟨hdfas, forall_mem_singleton.mpr hcomb⟩)
    rw [append_assoc, singleton_append] at hfold hall
    refine ⟨first :: minimized, ?_, hall, ?_, fun word action => ?_⟩
    · rw [foldlM_cons, addDFA, hmin]
      exact hfold
    · rw [map_cons, sizeBound_cons, sizeBound_cons, hlen, hsize]
    · rw [map_cons, takes_cons, takes_cons, htaken, htakes]

end Steps

def oneLetter (letter action : ℕ) : DFA where
  nodes := [⟨[], [⟨letter, letter, 1⟩], false⟩, ⟨[action], [], false⟩]
  root := 0

def smallLimits : Limits := ⟨100, {7, 8}, by decide, by decide⟩

theorem combinable_oneLetter {letter action : ℕ} (hletter : letter < 128)
    (haction : action ∈ smallLimits.actions) : (oneLetter letter action).Combinable smallLimits := by
  refine ⟨⟨by simp [oneLetter], ?_, ?_⟩, ?_, ?_, ?_, by simp [oneLetter, smallLimits]⟩
  · simp [oneLetter, RangeMaps.sorted_singleton, RangeMaps.Sorted.nil]
  · simp [oneLetter]
  · simpa [oneLetter] using hletter
  · simp [oneLetter]
  · simpa [oneLetter] using haction

end DFACombiner

end WebKit.ContentExtensions
