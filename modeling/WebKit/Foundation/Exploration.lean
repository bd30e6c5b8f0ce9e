import Mathlib

/-!
Exploring a graph with a stack of nodes whose successors have not been looked at.
Sets are lists without repetitions in the order of insertion. A node is put on the
stack when it is seen for the first time, so when the stack is empty the nodes seen
are those reachable from the start.
-/

namespace WebKit.Exploration

open List

variable {α : Type*} [DecidableEq α] {set : List α}

def add (set : List α) (a : α) : List α := if a ∈ set then set else set ++ [a]

def addAll (set added : List α) : List α := added.foldl add set

@[simp]
theorem mem_add {a b : α} : b ∈ add set a ↔ b ∈ set ∨ b = a := by
  unfold add
  split_ifs with h
  · refine ⟨.inl, fun hb => hb.elim id fun heq => heq ▸ h⟩
  · rw [mem_append, mem_singleton]

theorem nodup_add (h : set.Nodup) (a : α) : (add set a).Nodup := by
  unfold add
  split_ifs with ha
  · exact h
  · exact nodup_append_comm.mp (nodup_cons.mpr ⟨ha, h⟩)

@[simp]
theorem mem_addAll {added : List α} {b : α} : b ∈ addAll set added ↔ b ∈ set ∨ b ∈ added := by
  induction added generalizing set with
  | nil => simp [addAll]
  | cons a added ih =>
    have hfold : addAll set (a :: added) = addAll (add set a) added := rfl
    rw [hfold, ih, mem_add, mem_cons, or_assoc]

theorem nodup_addAll (h : set.Nodup) (added : List α) : (addAll set added).Nodup := by
  induction added generalizing set with
  | nil => exact h
  | cons a added ih => exact ih (nodup_add h a)

def discover (state : List α × List α) (node : α) : List α × List α :=
  if node ∈ state.1 then state else (state.1 ++ [node], state.2 ++ [node])

/-- Looking at edges puts the new nodes among them at the end of both lists. -/
theorem foldl_discover (seen stack targets : List α) :
    ∃ fresh, targets.foldl discover (seen, stack) = (seen ++ fresh, stack ++ fresh) ∧
      fresh.Nodup ∧ (∀ node ∈ fresh, node ∉ seen ∧ node ∈ targets) ∧
      ∀ node ∈ targets, node ∈ seen ++ fresh := by
  induction targets generalizing seen stack with
  | nil => exact ⟨[], by simp⟩
  | cons target targets ih =>
    rw [foldl_cons, discover]
    split_ifs with hseen
    · obtain ⟨fresh, heq, hnodup, hfresh, hall⟩ := ih seen stack
      refine ⟨fresh, heq, hnodup, fun node hnode => ?_, forall_mem_cons.mpr ⟨?_, hall⟩⟩
      · exact ⟨(hfresh node hnode).1, mem_cons_of_mem _ (hfresh node hnode).2⟩
      · exact mem_append_left _ hseen
    · obtain ⟨fresh, heq, hnodup, hfresh, hall⟩ := ih (seen ++ [target]) (stack ++ [target])
      simp only [append_assoc, singleton_append] at heq hfresh hall
      refine ⟨target :: fresh, heq, nodup_cons.mpr ⟨fun hmem => ?_, hnodup⟩, ?_,
        forall_mem_cons.mpr ⟨?_, hall⟩⟩
      · exact (hfresh target hmem).1 (mem_append_right _ mem_cons_self)
      · refine forall_mem_cons.mpr ⟨⟨hseen, mem_cons_self⟩, fun node hnode => ?_⟩
        obtain ⟨hnot, hmem⟩ := hfresh node hnode
        exact ⟨fun hold => hnot (mem_append_left _ hold), mem_cons_of_mem _ hmem⟩
      · exact mem_append_right _ mem_cons_self

theorem prefix_foldl_discover (state : List α × List α) (targets : List α) :
    state.1 <+: (targets.foldl discover state).1 := by
  obtain ⟨fresh, heq, -⟩ := foldl_discover state.1 state.2 targets
  exact ⟨fresh, (congrArg Prod.fst heq).symm⟩

structure Explored (successor : α → α → Prop) (start : α) (seen stack : List α) : Prop where
  nodup : seen.Nodup
  start_mem : start ∈ seen
  reachable : ∀ node ∈ seen, Relation.ReflTransGen successor start node
  stacked : ∀ node ∈ stack, node ∈ seen
  stackNodup : stack.Nodup
  expanded : ∀ node ∈ seen, node ∈ stack ∨ ∀ next, successor node next → next ∈ seen

variable {successor : α → α → Prop} {start node : α} {seen stack : List α}

omit [DecidableEq α] in
theorem explored_start (start : α) : Explored successor start [start] [start] where
  nodup := nodup_singleton start
  start_mem := mem_cons_self
  reachable := fun _ hmem => mem_singleton.mp hmem ▸ Relation.ReflTransGen.refl
  stacked := fun _ hmem => hmem
  stackNodup := nodup_singleton start
  expanded := fun _ hmem => .inl hmem

/-- Take the last node off the stack and look at its edges. -/
theorem Explored.expand (h : Explored successor start seen (stack ++ [node]))
    {targets : List α} (htgts : ∀ next, next ∈ targets ↔ successor node next) :
    Explored successor start (targets.foldl discover (seen, stack)).1
      (targets.foldl discover (seen, stack)).2 := by
  obtain ⟨fresh, heq, hnodup, hfresh, hall⟩ := foldl_discover seen stack targets
  have hnode : node ∈ seen := h.stacked node (mem_append_right _ mem_cons_self)
  obtain ⟨hstack, -, hdisj⟩ := nodup_append.mp h.stackNodup
  rw [heq]
  refine ⟨?_, mem_append_left _ h.start_mem, ?_, ?_, ?_, ?_⟩
  · exact nodup_append.mpr ⟨h.nodup, hnodup, fun a ha b hb heq => (hfresh b hb).1 (heq ▸ ha)⟩
  · refine forall_mem_append.mpr ⟨h.reachable, fun next hnext => ?_⟩
    exact (h.reachable node hnode).tail ((htgts next).mp (hfresh next hnext).2)
  · refine forall_mem_append.mpr ⟨fun next hnext => ?_, fun next hnext => ?_⟩
    · exact mem_append_left _ (h.stacked next (mem_append_left _ hnext))
    · exact mem_append_right _ hnext
  · refine nodup_append.mpr ⟨hstack, hnodup, fun a ha b hb heq => ?_⟩
    exact (hfresh b hb).1 (heq ▸ h.stacked a (mem_append_left _ ha))
  · refine forall_mem_append.mpr ⟨fun next hnext => ?_, fun next hnext => ?_⟩
    · rcases h.expanded next hnext with hstacked | hdone
      · rcases mem_append.mp hstacked with hstacked | hlast
        · exact .inl (mem_append_left _ hstacked)
        · refine .inr fun target htgt => hall target ((htgts target).mpr ?_)
          exact mem_singleton.mp hlast ▸ htgt
      · exact .inr fun target htgt => mem_append_left _ (hdone target htgt)
    · exact .inl (mem_append_right _ hnext)

omit [DecidableEq α] in
/-- With an empty stack, the nodes seen are the reachable ones. -/
theorem Explored.mem_iff (h : Explored successor start seen []) :
    node ∈ seen ↔ Relation.ReflTransGen successor start node := by
  refine ⟨h.reachable node, fun hreach => ?_⟩
  induction hreach with
  | refl => exact h.start_mem
  | tail _ hedge ih => exact (h.expanded _ ih).resolve_left not_mem_nil _ hedge

/-- Each node that is expanded is one more node seen and not on the stack. -/
theorem length_expand (seen stack targets : List α) :
    (targets.foldl discover (seen, stack)).1.length + stack.length =
      (targets.foldl discover (seen, stack)).2.length + seen.length := by
  obtain ⟨fresh, heq, -⟩ := foldl_discover seen stack targets
  rw [heq, length_append, length_append]
  omega

theorem Explored.length_le (h : Explored successor start seen stack) {nodes : Finset α}
    (hbound : ∀ node, Relation.ReflTransGen successor start node → node ∈ nodes) :
    seen.length ≤ nodes.card := by
  rw [← toFinset_card_of_nodup h.nodup]
  exact Finset.card_le_card fun node hnode => hbound node (h.reachable node (mem_toFinset.mp hnode))

def explore (successors : α → List α) : ℕ → List α × List α → Option (List α)
  | 0, _ => none
  | fuel + 1, (seen, stack) =>
    match stack.getLast? with
    | none => some seen
    | some node => explore successors fuel ((successors node).foldl discover (seen, stack.dropLast))

theorem prefix_of_explore {successors : α → List α} {fuel : ℕ} {all : List α}
    (h : explore successors fuel (seen, stack) = some all) : seen <+: all := by
  induction fuel generalizing seen stack with
  | zero => cases h
  | succ fuel ih =>
    rw [explore] at h
    split at h
    · exact Option.some.inj h ▸ prefix_rfl
    · exact (prefix_foldl_discover (seen, _) _).trans (ih h)

/-- An exploration ends, with the reachable nodes. -/
theorem Explored.explore {successors : α → List α}
    (hsuccessors : ∀ node next, next ∈ successors node ↔ successor node next)
    (h : Explored successor start seen stack) {nodes : Finset α}
    (hbound : ∀ node, Relation.ReflTransGen successor start node → node ∈ nodes) (fuel : ℕ)
    (hfuel : nodes.card + stack.length < fuel + seen.length) :
    ∃ all, explore successors fuel (seen, stack) = some all ∧ Explored successor start all [] := by
  induction fuel generalizing seen stack with
  | zero =>
    have := h.length_le hbound
    omega
  | succ fuel ih =>
    rcases eq_nil_or_concat' stack with rfl | ⟨rest, node, rfl⟩
    · exact ⟨seen, rfl, h⟩
    · have hlen := length_expand seen rest (successors node)
      simp only [length_append, length_singleton] at hfuel
      simp only [Exploration.explore, getLast?_concat, dropLast_concat]
      exact ih (h.expand (hsuccessors node)) (by omega)

/-- What holds while the successors of some nodes are collected, and theirs: the starts
count as seen only once an edge leads to them. -/
structure Collecting (successors : α → Set α) (starts seen stack : List α) : Prop where
  nodup : seen.Nodup
  least : ∀ X : Set α, (∀ node, node ∈ starts ∨ node ∈ X → successors node ⊆ X) → ∀ node ∈ seen, node ∈ X
  stacked : ∀ node ∈ stack, node ∈ starts ∨ node ∈ seen
  expanded : ∀ node, node ∈ starts ∨ node ∈ seen → node ∈ stack ∨ ∀ next ∈ successors node, next ∈ seen

section Collecting

variable {successors : α → Set α} {starts : List α}

theorem Collecting.expand (h : Collecting successors starts seen (stack ++ [node]))
    {targets : List α} (htgts : ∀ next, next ∈ targets ↔ next ∈ successors node) :
    Collecting successors starts (targets.foldl discover (seen, stack)).1
      (targets.foldl discover (seen, stack)).2 := by
  obtain ⟨fresh, heq, hnodup, hfresh, hall⟩ := foldl_discover seen stack targets
  rw [heq]
  refine ⟨?_, fun X hX => ?_, ?_, fun next hnext => ?_⟩
  · exact nodup_append.mpr ⟨h.nodup, hnodup, fun a ha b hb heq => (hfresh b hb).1 (heq ▸ ha)⟩
  · refine forall_mem_append.mpr ⟨h.least X hX, fun next hnext => ?_⟩
    have hnode := h.stacked node (mem_append_right _ mem_cons_self)
    exact hX node (hnode.imp_right (h.least X hX node)) ((htgts next).mp (hfresh next hnext).2)
  · refine forall_mem_append.mpr ⟨fun next hnext => ?_, fun next hnext => .inr ?_⟩
    · exact (h.stacked next (mem_append_left _ hnext)).imp_right (mem_append_left _)
    · exact mem_append_right _ hnext
  · by_cases hmem : next ∈ fresh
    · exact .inl (mem_append_right _ hmem)
    · rw [mem_append, or_iff_left hmem] at hnext
      rcases h.expanded next hnext with hstacked | hdone
      · rcases mem_append.mp hstacked with hstacked | hlast
        · exact .inl (mem_append_left _ hstacked)
        · refine .inr fun target htgt => hall target ((htgts target).mpr ?_)
          exact mem_singleton.mp hlast ▸ htgt
      · exact .inr fun target htgt => mem_append_left _ (hdone target htgt)

omit [DecidableEq α] in
/-- With an empty stack, the nodes seen are the least set that is closed. -/
theorem Collecting.isLeast (h : Collecting successors starts seen []) :
    IsLeast {X : Set α | ∀ node, node ∈ starts ∨ node ∈ X → successors node ⊆ X} {node | node ∈ seen} :=
  ⟨fun node hnode next hnext => (h.expanded node hnode).resolve_left not_mem_nil next hnext, h.least⟩

end Collecting

section Numbering

variable {β : Type*}

/-- Nodes are numbered as they are seen. -/
theorem getElem?_append_singleton {l : List β} {a b : β} {i : ℕ}
    (h : (l ++ [a])[i]? = some b) : l[i]? = some b ∨ i = l.length ∧ b = a := by
  rw [getElem?_append] at h
  split_ifs at h with hlt
  · exact .inl h
  · have hi := (List.getElem?_eq_some_iff.mp h).1
    rw [length_singleton] at hi
    have heq : i = l.length := by omega
    rw [heq, Nat.sub_self] at h
    exact .inr ⟨heq, (Option.some.inj h).symm⟩

theorem getElem?_modify_eq_some {l : List β} {f : β → β} {k i : ℕ} {b : β}
    (h : (l.modify k f)[i]? = some b) : ∃ a, l[i]? = some a ∧ b = if k = i then f a else a := by
  rw [getElem?_modify] at h
  obtain ⟨a, ha, rfl⟩ := Option.map_eq_some_iff.mp h
  exact ⟨a, ha, rfl⟩

end Numbering

end WebKit.Exploration
