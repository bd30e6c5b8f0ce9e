import WebKit.Foundation.Runs

/-!
The list of a page's visited items. The entries and the index of the current one are kept apart and
are changed one after the other; items that leave the list are reported to the page, one by one and
again with the change of the list. The abstract model of it is a history, in which the current item
stands between the items before and after it.
-/

namespace WebKit.BackForward

open List

variable {α : Type*}

structure BackForwardList (α : Type*) where
  entries : List α
  hasCurrentIndex : Bool
  currentIndex : ℕ
  capacity : ℕ

structure Notifications (α : Type*) where
  backForwardRemovedItem : List α
  didChangeBackForwardList : List (Option α × List α)

namespace Notifications

def none : Notifications α := ⟨[], []⟩

def removedItems (notifications : Notifications α) : List α :=
  notifications.didChangeBackForwardList.flatMap Prod.snd

end Notifications

namespace BackForwardList

def empty (capacity : ℕ) : BackForwardList α := ⟨[], false, 0, capacity⟩

def tossForward (targetSize : ℕ) (entries removedItems : List α) : List α × List α :=
  if h : entries.length > targetSize then
    tossForward targetSize entries.dropLast
      (removedItems ++ [entries.getLast (ne_nil_of_length_pos (Nat.zero_lt_of_lt h))])
  else (entries, removedItems)
termination_by entries.length
decreasing_by
  rw [length_dropLast]
  omega

variable (list : BackForwardList α)

def makeRoom : BackForwardList α × List α :=
  if list.hasCurrentIndex then
    let (entries, removedItems) := tossForward (list.currentIndex + 1) list.entries []
    if entries.length = list.capacity ∧ (list.currentIndex ≠ 0 ∨ list.capacity = 1) then
      let rest := entries.drop 1
      if rest.isEmpty then
        ({ list with entries := rest, hasCurrentIndex := false }, removedItems ++ entries.take 1)
      else
        ({ list with entries := rest, currentIndex := list.currentIndex - 1 },
          removedItems ++ entries.take 1)
    else ({ list with entries := entries }, removedItems)
  else ({ list with entries := [] }, list.entries)

def placeItem (removedItems : List α) (newItem : α) (keep : Bool) :
    BackForwardList α × Notifications α :=
  if !list.hasCurrentIndex then
    ({ list with entries := list.entries.insertIdx 0 newItem, hasCurrentIndex := true, currentIndex := 0 },
      ⟨removedItems, [(some newItem, removedItems)]⟩)
  else if keep then
    ({ list with
        entries := list.entries.insertIdx (list.currentIndex + 1) newItem
        currentIndex := list.currentIndex + 1 },
      ⟨removedItems, [(some newItem, removedItems)]⟩)
  else
    ({ list with entries := list.entries.set list.currentIndex newItem },
      ⟨removedItems, [(some newItem, removedItems ++ list.entries[list.currentIndex]?.toList)]⟩)

def addItem (newItem : Option α) (keep : Bool) : BackForwardList α × Notifications α :=
  match newItem with
  | none => (list, .none)
  | some newItem =>
    if list.capacity = 0 then (list, .none)
    else
      let (list, removedItems) := list.makeRoom
      list.placeItem removedItems newItem keep

def goToItem [DecidableEq α] (list : BackForwardList α) (item : Option α) (keep : Bool) :
    BackForwardList α × Notifications α :=
  match item with
  | none => (list, .none)
  | some item =>
    if list.entries.isEmpty || !list.hasCurrentIndex then (list, .none)
    else
      match list.entries.idxOf? item with
      | none => (list, .none)
      | some targetIndex =>
        let currentItem := list.entries[list.currentIndex]?
        let shouldKeepCurrentItem := if currentItem ≠ some item then keep else true
        if shouldKeepCurrentItem then
          ({ list with currentIndex := targetIndex }, ⟨[], [(none, [])]⟩)
        else
          let entries := list.entries.eraseIdx list.currentIndex
          ({ list with entries := entries, currentIndex := entries.idxOf item },
            ⟨[], [(none, currentItem.toList)]⟩)

def removeAllItems : BackForwardList α × Notifications α :=
  ({ list with entries := [], hasCurrentIndex := false }, ⟨list.entries, [(none, list.entries)]⟩)

def currentItem : Option α :=
  if list.hasCurrentIndex then list.entries[list.currentIndex]? else none

def clear [DecidableEq α] (list : BackForwardList α) : BackForwardList α × Notifications α :=
  if list.entries.length ≤ 1 then (list, .none)
  else
    match list.currentItem with
    | none =>
      ({ list with entries := [], hasCurrentIndex := false }, ⟨list.entries, [(none, list.entries)]⟩)
    | some currentItem =>
      let removedItems := list.entries.eraseIdx list.currentIndex
      ({ list with entries := [currentItem], currentIndex := 0 },
        ⟨list.entries.filter (· ≠ currentItem), [(none, removedItems)]⟩)

end BackForwardList

inductive Call (α : Type*) where
  | addItem (newItem : Option α) (keep : Bool)
  | goToItem (item : Option α) (keep : Bool)
  | clear
  | removeAllItems

structure History (α : Type*) where
  back : List α
  current : α
  forward : List α

namespace History

def entries (history : History α) : List α := history.back ++ history.current :: history.forward

/-- Visit a new item: the forward part, the oldest item if the history is full, and a current item
that is not kept leave. -/
def visit (history : History α) (capacity : ℕ) (item : α) (keep : Bool) : History α × List α :=
  if history.back.length + 1 < capacity then
    if keep then (⟨history.back ++ [history.current], item, []⟩, history.forward.reverse)
    else (⟨history.back, item, []⟩, history.forward.reverse ++ [history.current])
  else
    match history.back with
    | [] => (⟨[], item, []⟩, history.forward.reverse ++ [history.current])
    | oldest :: back =>
      if keep then (⟨back ++ [history.current], item, []⟩, history.forward.reverse ++ [oldest])
      else (⟨back, item, []⟩, history.forward.reverse ++ [oldest, history.current])

def splitAt [DecidableEq α] (entries : List α) (item : α) : History α :=
  ⟨entries.take (entries.idxOf item), item, entries.drop (entries.idxOf item + 1)⟩

def goTo [DecidableEq α] (history : History α) (item : α) (keep : Bool) : History α × List α :=
  if item ∉ history.entries then (history, [])
  else if item = history.current ∨ keep then (splitAt history.entries item, [])
  else (splitAt (history.back ++ history.forward) item, [history.current])

def apply [DecidableEq α] (capacity : ℕ) (history : Option (History α)) :
    Call α → Option (History α) × List α
  | .addItem newItem keep =>
    match newItem, history with
    | none, _ => (history, [])
    | some item, none => if capacity = 0 then (none, []) else (some ⟨[], item, []⟩, [])
    | some item, some history =>
      let (history, left) := history.visit capacity item keep
      (some history, left)
  | .goToItem item keep =>
    match item, history with
    | some item, some history =>
      let (history, left) := history.goTo item keep
      (some history, left)
    | _, _ => (history, [])
  | .clear =>
    match history with
    | none => (none, [])
    | some history => (some ⟨[], history.current, []⟩, history.back ++ history.forward)
  | .removeAllItems =>
    match history with
    | none => (none, [])
    | some history => (none, history.entries)

end History

namespace BackForwardList

section Calls

variable [DecidableEq α] (list : BackForwardList α)

def call : Call α → BackForwardList α × Notifications α
  | .addItem newItem keep => list.addItem newItem keep
  | .goToItem item keep => list.goToItem item keep
  | .clear => list.clear
  | .removeAllItems => list.removeAllItems

def step (call : Call α) : Option (BackForwardList α) :=
  some (list.call call).1

def history : Option (History α) :=
  if list.hasCurrentIndex then
    list.entries[list.currentIndex]?.map fun current =>
      ⟨list.entries.take list.currentIndex, current, list.entries.drop (list.currentIndex + 1)⟩
  else none

/-- The list has at most as many entries as its capacity, and a current index, which is below its
size, exactly when it has entries. -/
structure Sound (list : BackForwardList α) : Prop where
  length_le : list.entries.length ≤ list.capacity
  hasCurrentIndex_iff : list.hasCurrentIndex = true ↔ list.entries ≠ []
  currentIndex_lt : list.hasCurrentIndex = true → list.currentIndex < list.entries.length

/-- A call changes the list as it changes the history, and every item that leaves is reported once
in both ways. -/
structure Follows (list : BackForwardList α) (call : Call α) : Prop where
  history_eq : (list.call call).1.history = (History.apply list.capacity list.history call).1
  removed : (list.call call).2.backForwardRemovedItem.Perm
    (History.apply list.capacity list.history call).2
  removedItems : (list.call call).2.removedItems.Perm
    (History.apply list.capacity list.history call).2

/-- The client does not keep the current item, or the list is cleared while the current item is in
it twice. -/
def Defect : Call α → Prop
  | .addItem newItem keep =>
    newItem ≠ none ∧ list.hasCurrentIndex = true ∧ 2 ≤ list.capacity ∧ keep = false
  | .goToItem item keep =>
    ∃ target, item = some target ∧ target ∈ list.entries ∧ list.currentItem ≠ some target ∧ keep = false
  | .clear => ∃ current, list.currentItem = some current ∧ 2 ≤ list.entries.count current
  | .removeAllItems => False

end Calls

def ofHistory (capacity : ℕ) (history : History α) : BackForwardList α :=
  ⟨history.entries, true, history.back.length, capacity⟩

section Histories

variable {capacity : ℕ} {h : History α}

theorem getElem?_entries (h : History α) : h.entries[h.back.length]? = some h.current := by
  rw [History.entries, getElem?_append_right (Nat.le_refl _), Nat.sub_self, getElem?_cons_zero]

theorem length_entries (h : History α) : h.entries.length = h.back.length + 1 + h.forward.length := by
  rw [History.entries, length_append, length_cons]
  omega

theorem history_ofHistory (capacity : ℕ) (h : History α) : (ofHistory capacity h).history = some h := by
  have htake : h.entries.take h.back.length = h.back := take_left
  have hdrop : h.entries.drop (h.back.length + 1) = h.forward := by
    rw [History.entries, drop_append, drop_of_length_le (Nat.le_succ _),
      Nat.add_sub_cancel_left, nil_append, drop_one, tail_cons]
  rw [history, if_pos (show (ofHistory capacity h).hasCurrentIndex = true from rfl)]
  change (h.entries[h.back.length]?.map fun current =>
    (⟨h.entries.take h.back.length, current, h.entries.drop (h.back.length + 1)⟩ : History α)) = some h
  rw [getElem?_entries, htake, hdrop, Option.map_some]

theorem sound_ofHistory (hle : h.entries.length ≤ capacity) : (ofHistory capacity h).Sound := by
  refine ⟨hle, iff_of_true rfl ?_, fun _ => ?_⟩
  · exact append_ne_nil_of_right_ne_nil _ (cons_ne_nil _ _)
  · change h.back.length < h.entries.length
    rw [length_entries]
    omega

theorem sound_empty (capacity currentIndex : ℕ) :
    (⟨[], false, currentIndex, capacity⟩ : BackForwardList α).Sound :=
  ⟨Nat.zero_le _, iff_of_false nofun fun hne => hne rfl, nofun⟩

/-- A sound list stands for a history, or is empty. -/
theorem Sound.cases {list : BackForwardList α} (hsound : list.Sound) :
    (∃ h, list = ofHistory list.capacity h) ∨
      ∃ currentIndex, list = ⟨[], false, currentIndex, list.capacity⟩ := by
  obtain ⟨entries, hasCurrentIndex, currentIndex, capacity⟩ := list
  obtain ⟨-, hiff, hlt⟩ := hsound
  dsimp only at hiff hlt
  cases hasCurrentIndex with
  | false =>
    have hnil : entries = [] := by
      by_contra hne
      exact Bool.false_ne_true (hiff.mpr hne)
    subst hnil
    exact .inr ⟨currentIndex, rfl⟩
  | true =>
    have hidx := hlt rfl
    refine .inl ⟨⟨entries.take currentIndex, entries[currentIndex], entries.drop (currentIndex + 1)⟩, ?_⟩
    have hents : entries.take currentIndex ++ entries[currentIndex] ::
        entries.drop (currentIndex + 1) = entries := by
      rw [← drop_eq_getElem_cons hidx, take_append_drop]
    have hlen : (entries.take currentIndex).length = currentIndex := by
      rw [length_take]
      omega
    simp only [ofHistory, History.entries, hents, hlen]

theorem tossForward_eq (targetSize : ℕ) (entries removedItems : List α) :
    tossForward targetSize entries removedItems =
      (entries.take targetSize, removedItems ++ (entries.drop targetSize).reverse) := by
  induction hlen : entries.length generalizing entries removedItems with
  | zero =>
    rw [length_eq_zero_iff.mp hlen, tossForward]
    simp
  | succ n ih =>
    rw [tossForward]
    split_ifs with hlong
    · have hne : entries ≠ [] := ne_nil_of_length_pos (by omega)
      have hshort : targetSize ≤ entries.dropLast.length := by
        rw [length_dropLast]
        omega
      rw [ih _ _ (by rw [length_dropLast, hlen, Nat.add_sub_cancel])]
      have hsplit := dropLast_append_getLast hne
      have htake : entries.take targetSize = entries.dropLast.take targetSize := by
        conv_lhs => rw [← hsplit, take_append_of_le_length hshort]
      have hdrop : entries.drop targetSize = entries.dropLast.drop targetSize ++ [entries.getLast hne] := by
        conv_lhs => rw [← hsplit, drop_append_of_le_length hshort]
      rw [htake, hdrop, reverse_append, reverse_singleton, singleton_append,
        append_assoc, singleton_append]
    · rw [take_of_length_le (by omega), drop_of_length_le (by omega), reverse_nil, append_nil]

end Histories

section Calls

variable {capacity : ℕ} {h : History α} {item : α} {keep : Bool}

/-- What is left of a history when there is room for a new item, with the items that were tossed. -/
theorem makeRoom_ofHistory (hle : h.entries.length ≤ capacity) : (ofHistory capacity h).makeRoom =
      if h.back.length + 1 < capacity then
        (ofHistory capacity ⟨h.back, h.current, []⟩, h.forward.reverse)
      else
        match h.back with
        | [] => (⟨[], false, 0, capacity⟩, h.forward.reverse ++ [h.current])
        | oldest :: back =>
          (ofHistory capacity ⟨back, h.current, []⟩, h.forward.reverse ++ [oldest]) := by
  rw [length_entries] at hle
  have htoss : tossForward (h.back.length + 1) h.entries [] =
      (h.back ++ [h.current], h.forward.reverse) := by
    have hsplit : h.entries = (h.back ++ [h.current]) ++ h.forward := by
      rw [append_assoc, singleton_append]
      rfl
    have hlen : (h.back ++ [h.current]).length = h.back.length + 1 := by
      rw [length_append, length_singleton]
    rw [tossForward_eq, hsplit, ← hlen, take_left, drop_left, nil_append]
  unfold makeRoom
  rw [if_pos (show (ofHistory capacity h).hasCurrentIndex = true from rfl)]
  simp only [ofHistory, htoss, length_append, length_singleton]
  by_cases hroom : h.back.length + 1 < capacity
  · rw [if_neg (by omega), if_pos hroom]
    rfl
  · rw [if_neg hroom]
    cases hback : h.back with
    | nil =>
      rw [hback, length_nil] at hle hroom
      rw [if_pos (by rw [length_nil]; omega)]
      rfl
    | cons oldest back =>
      rw [hback, length_cons] at hle hroom
      rw [if_pos (by rw [length_cons]; omega), if_neg (by simp)]
      simp [History.entries]

theorem placeItem_ofHistory (back : List α) (current : α) (removedItems : List α) (item : α)
    (keep : Bool) :
    (ofHistory capacity ⟨back, current, []⟩).placeItem removedItems item keep =
      if keep then
        (ofHistory capacity ⟨back ++ [current], item, []⟩, ⟨removedItems, [(some item, removedItems)]⟩)
      else
        (ofHistory capacity ⟨back, item, []⟩,
          ⟨removedItems, [(some item, removedItems ++ [current])]⟩) := by
  have hinsert : (back ++ [current]).insertIdx (back.length + 1) item = back ++ [current] ++ [item] := by
    have hlen : (back ++ [current]).length = back.length + 1 := by
      rw [length_append, length_singleton]
    rw [← hlen, insertIdx_length_self]
  have hset : (back ++ [current]).set back.length item = back ++ [item] := by
    rw [set_append_right _ _ (Nat.le_refl _), Nat.sub_self, set_cons_zero]
  unfold placeItem
  cases keep with
  | true =>
    simp only [ofHistory, History.entries, Bool.not_true, Bool.false_eq_true, if_false, if_true, hinsert,
      length_append, length_singleton]
  | false =>
    have hcur := getElem?_entries (⟨back, current, []⟩ : History α)
    simp only [History.entries] at hcur
    simp only [ofHistory, History.entries, Bool.not_true, Bool.false_eq_true, if_false, hset, hcur,
      Option.toList_some]

/-- Adding an item is a visit of it; only an item that the client does not keep is not reported. -/
theorem addItem_ofHistory (hle : h.entries.length ≤ capacity) :
    ∃ removed, (ofHistory capacity h).addItem (some item) keep =
        (ofHistory capacity (h.visit capacity item keep).1,
          ⟨removed, [(some item, (h.visit capacity item keep).2)]⟩) ∧
      (h.visit capacity item keep).2 =
        removed ++ if 2 ≤ capacity ∧ keep = false then [h.current] else [] := by
  have hlen := length_entries h
  have hadd : (ofHistory capacity h).addItem (some item) keep =
      let (list, removedItems) := (ofHistory capacity h).makeRoom
      list.placeItem removedItems item keep :=
    if_neg (show ¬capacity = 0 by omega)
  rw [hadd, makeRoom_ofHistory hle]
  unfold History.visit
  by_cases hroom : h.back.length + 1 < capacity
  · simp only [if_pos hroom, placeItem_ofHistory]
    cases keep with
    | true => exact ⟨h.forward.reverse, by simp⟩
    | false =>
      refine ⟨h.forward.reverse, by simp, ?_⟩
      rw [if_neg Bool.false_ne_true, if_pos ⟨by omega, rfl⟩]
  · simp only [if_neg hroom]
    cases hback : h.back with
    | nil =>
      rw [hback, length_nil] at hlen hroom
      refine ⟨h.forward.reverse ++ [h.current], rfl, ?_⟩
      rw [if_neg (by omega), append_nil]
    | cons oldest back =>
      rw [hback, length_cons] at hlen
      simp only [placeItem_ofHistory]
      cases keep with
      | true => exact ⟨h.forward.reverse ++ [oldest], by simp⟩
      | false =>
        refine ⟨h.forward.reverse ++ [oldest], by simp, ?_⟩
        rw [if_neg Bool.false_ne_true, if_pos ⟨by omega, rfl⟩, append_assoc, singleton_append]

theorem length_visit_le (hle : h.entries.length ≤ capacity) :
    (h.visit capacity item keep).1.entries.length ≤ capacity := by
  have hlen := length_entries h
  rw [length_entries]
  unfold History.visit
  by_cases hroom : h.back.length + 1 < capacity
  · rw [if_pos hroom]
    cases keep <;> simp only [Bool.false_eq_true, if_false, if_true, length_append,
      length_singleton, length_nil] <;> omega
  · rw [if_neg hroom]
    cases hback : h.back with
    | nil =>
      simp only [length_nil]
      omega
    | cons oldest back =>
      rw [hback, length_cons] at hlen
      cases keep <;> simp only [Bool.false_eq_true, if_false, if_true, length_append,
        length_singleton, length_nil] <;> omega

section Items

variable [DecidableEq α]

theorem entries_splitAt {entries : List α} (hmem : item ∈ entries) :
    (History.splitAt entries item).entries = entries := by
  have hlt := idxOf_lt_length_of_mem hmem
  have hget := getElem_idxOf hlt
  have hdrop : item :: entries.drop (entries.idxOf item + 1) = entries.drop (entries.idxOf item) := by
    rw [drop_eq_getElem_cons hlt, hget]
  simp only [History.splitAt, History.entries, hdrop, take_append_drop]

theorem ofHistory_splitAt {entries : List α} (hmem : item ∈ entries) :
    ofHistory capacity (History.splitAt entries item) =
      ⟨entries, true, entries.idxOf item, capacity⟩ := by
  have hlt := idxOf_lt_length_of_mem hmem
  have hlen : (History.splitAt entries item).back.length = entries.idxOf item := by
    rw [History.splitAt, length_take]
    omega
  rw [ofHistory, entries_splitAt hmem, hlen]

/-- A move is to an item that is not there, from an item that is kept, or from one that is left out. -/
theorem goTo_cases (h : History α) (item : α) (keep : Bool) :
    (item ∉ h.entries ∧ h.goTo item keep = (h, [])) ∨
      (item ∈ h.entries ∧ (item = h.current ∨ keep) ∧
        h.goTo item keep = (History.splitAt h.entries item, [])) ∨
      (item ∈ h.entries ∧ item ∈ h.back ++ h.forward ∧ item ≠ h.current ∧ keep = false ∧
        h.goTo item keep = (History.splitAt (h.back ++ h.forward) item, [h.current])) := by
  unfold History.goTo
  by_cases hmem : item ∈ h.entries
  · rw [if_neg (not_not.mpr hmem)]
    by_cases hkeep : item = h.current ∨ keep
    · rw [if_pos hkeep]
      exact .inr (.inl ⟨hmem, hkeep, rfl⟩)
    · obtain ⟨hoth, hkeep'⟩ := not_or.mp hkeep
      have hrest : item ∈ h.back ++ h.forward := by
        rw [History.entries, mem_append, mem_cons] at hmem
        rw [mem_append]
        exact hmem.imp_right fun hmem => hmem.resolve_left hoth
      rw [if_neg hkeep]
      exact .inr (.inr ⟨hmem, hrest, hoth, Bool.eq_false_iff.mpr hkeep', rfl⟩)
  · rw [if_pos hmem]
    exact .inl ⟨hmem, rfl⟩

omit [DecidableEq α] in
theorem eraseIdx_entries (h : History α) : h.entries.eraseIdx h.back.length = h.back ++ h.forward := by
  rw [History.entries, eraseIdx_append_of_length_le (Nat.le_refl _), Nat.sub_self,
    eraseIdx_cons_zero]

/-- Going to an item is a move to it; an item that the client does not keep is not reported. -/
theorem goToItem_ofHistory : (ofHistory capacity h).goToItem (some item) keep =
      (ofHistory capacity (h.goTo item keep).1,
        if item ∈ h.entries then ⟨[], [(none, (h.goTo item keep).2)]⟩ else .none) := by
  have hne : h.entries.isEmpty = false := by
    rw [isEmpty_eq_false_iff]
    exact append_ne_nil_of_right_ne_nil _ (cons_ne_nil _ _)
  have hgo (hmem : item ∈ h.entries) : (ofHistory capacity h).goToItem (some item) keep =
      if (if some h.current ≠ some item then keep else true) = true then
        (⟨h.entries, true, h.entries.idxOf item, capacity⟩, ⟨[], [(none, [])]⟩)
      else
        (⟨h.back ++ h.forward, true, (h.back ++ h.forward).idxOf item, capacity⟩,
          ⟨[], [(none, [h.current])]⟩) := by
    have hfind : h.entries.idxOf? item = some (h.entries.idxOf item) := by
      obtain ⟨index, hidx⟩ := Option.isSome_iff_exists.mp (isSome_idxOf?.mpr hmem)
      rw [idxOf_eq_getD_idxOf?, hidx, Option.getD_some]
    simp only [goToItem, ofHistory, hne, hfind, getElem?_entries, eraseIdx_entries]
    rfl
  rcases goTo_cases h item keep with ⟨hnot, hgoTo⟩ | ⟨hmem, hkeep, hgoTo⟩ |
    ⟨hmem, hrest, hoth, hkeep, hgoTo⟩
  · have hfind : h.entries.idxOf? item = none := idxOf?_eq_none_iff.mpr hnot
    rw [hgoTo, if_neg hnot]
    simp only [goToItem, ofHistory, hne, hfind, Bool.not_true, Bool.or_false, Bool.false_eq_true,
      if_false]
  · rw [hgo hmem, hgoTo, if_pos hmem, ofHistory_splitAt hmem, if_pos]
    by_cases hcur : some h.current ≠ some item
    · rw [if_pos hcur]
      exact hkeep.resolve_left fun heq => hcur (congrArg some heq.symm)
    · rw [if_neg hcur]
  · rw [hgo hmem, hgoTo, if_pos hmem, ofHistory_splitAt hrest, if_neg]
    rw [if_pos fun heq => hoth (Option.some.inj heq).symm, hkeep]
    exact nofun

theorem filter_entries (h : History α) :
    h.entries.filter (· ≠ h.current) = (h.back ++ h.forward).filter (· ≠ h.current) := by
  rw [History.entries, filter_append, filter_append, filter_cons_of_neg (by simp)]

theorem clear_ofHistory : (ofHistory capacity h).clear =
      if h.back ++ h.forward = [] then (ofHistory capacity h, .none)
      else (ofHistory capacity ⟨[], h.current, []⟩,
        ⟨(h.back ++ h.forward).filter (· ≠ h.current), [(none, h.back ++ h.forward)]⟩) := by
  have hlen := length_entries h
  have hempty : h.back ++ h.forward = [] ↔ h.entries.length ≤ 1 := by
    rw [← length_eq_zero_iff, length_append]
    omega
  simp only [clear, currentItem, ofHistory, if_true, getElem?_entries, eraseIdx_entries, filter_entries,
    hempty]
  rfl

structure Stands (list : BackForwardList α) (capacity : ℕ) (history : Option (History α)) : Prop where
  sound : list.Sound
  capacity_eq : list.capacity = capacity
  history_eq : list.history = history

omit [DecidableEq α] in
theorem stands_ofHistory (hle : h.entries.length ≤ capacity) :
    (ofHistory capacity h).Stands capacity (some h) :=
  ⟨sound_ofHistory hle, rfl, history_ofHistory capacity h⟩

omit [DecidableEq α] in
theorem stands_empty (capacity currentIndex : ℕ) :
    (⟨[], false, currentIndex, capacity⟩ : BackForwardList α).Stands capacity none :=
  ⟨sound_empty capacity currentIndex, rfl, rfl⟩

structure Outcome (list : BackForwardList α) (capacity : ℕ) (history : Option (History α))
    (call : Call α) : Prop where
  stands : (list.call call).1.Stands capacity (History.apply capacity history call).1
  removedItems : (list.call call).2.removedItems.Perm (History.apply capacity history call).2
  removed_iff : (list.call call).2.backForwardRemovedItem.Perm (History.apply capacity history call).2 ↔
    ¬list.Defect call

omit [DecidableEq α] in
theorem perm_append_iff (items added : List α) : items.Perm (items ++ added) ↔ added = [] := by
  constructor
  · intro hperm
    have hlen := hperm.length_eq
    rw [length_append] at hlen
    exact length_eq_zero_iff.mp (by omega)
  · intro hnil
    rw [hnil, append_nil]

theorem perm_filter_ne_iff (items : List α) (current : α) :
    (items.filter (· ≠ current)).Perm items ↔ current ∉ items := by
  constructor
  · intro hperm hmem
    have hmem' := hperm.symm.mem_iff.mp hmem
    rw [mem_filter] at hmem'
    exact absurd rfl (of_decide_eq_true hmem'.2)
  · intro hnot
    rw [filter_eq_self.mpr]
    intro item hitem
    exact decide_eq_true fun heq => hnot (heq ▸ hitem)

omit [DecidableEq α] in
theorem removedItems_singleton (removed items : List α) (item : Option α) :
    (⟨removed, [(item, items)]⟩ : Notifications α).removedItems = items := by
  rw [Notifications.removedItems, flatMap_singleton]

variable {list : BackForwardList α}

/-- A call that does nothing. -/
theorem outcome_of_unchanged {history : Option (History α)} {call : Call α}
    (hstand : list.Stands capacity history) (hcall : list.call call = (list, .none))
    (happly : History.apply capacity history call = (history, [])) (hnot : ¬list.Defect call) :
    list.Outcome capacity history call := by
  constructor
  · rw [hcall, happly]
    exact hstand
  · rw [hcall, happly]
    rfl
  · rw [hcall, happly]
    exact iff_of_true (List.Perm.refl _) hnot

section

variable (hle : h.entries.length ≤ capacity)

include hle

theorem outcome_addItem :
    (ofHistory capacity h).Outcome capacity (some h) (.addItem (some item) keep) := by
  obtain ⟨removed, hadd, hleft⟩ :
      ∃ removed, (ofHistory capacity h).addItem (some item) keep = _ ∧ _ := addItem_ofHistory hle
  have hcall : (ofHistory capacity h).call (.addItem (some item) keep) = _ := hadd
  have happly : History.apply capacity (some h) (.addItem (some item) keep) =
    (some (h.visit capacity item keep).1, (h.visit capacity item keep).2) := rfl
  have hdefect : (ofHistory capacity h).Defect (.addItem (some item) keep) ↔
      2 ≤ capacity ∧ keep = false := by
    simp [Defect, ofHistory]
  constructor
  · rw [hcall, happly]
    exact stands_ofHistory (length_visit_le hle)
  · rw [hcall, happly, removedItems_singleton]
  · rw [hcall, happly, hleft, perm_append_iff, hdefect]
    by_cases hnotKept : 2 ≤ capacity ∧ keep = false
    · rw [if_pos hnotKept]
      exact iff_of_false (cons_ne_nil _ _) (not_not.mpr hnotKept)
    · rw [if_neg hnotKept]
      exact iff_of_true rfl hnotKept

theorem length_goTo_le : (h.goTo item keep).1.entries.length ≤ capacity := by
  rcases goTo_cases h item keep with ⟨-, hgoTo⟩ | ⟨hmem, -, hgoTo⟩ | ⟨-, hrest, -, -, hgoTo⟩
  · rw [hgoTo]
    exact hle
  · rw [hgoTo, entries_splitAt hmem]
    exact hle
  · rw [length_entries] at hle
    rw [hgoTo, entries_splitAt hrest, length_append]
    omega

theorem outcome_goToItem :
    (ofHistory capacity h).Outcome capacity (some h) (.goToItem (some item) keep) := by
  have hcall : (ofHistory capacity h).call (.goToItem (some item) keep) = _ := goToItem_ofHistory
  have happly : History.apply capacity (some h) (.goToItem (some item) keep) =
    (some (h.goTo item keep).1, (h.goTo item keep).2) := rfl
  have hcur : (ofHistory capacity h).currentItem = some h.current := getElem?_entries h
  have hstand : ((ofHistory capacity h).call (.goToItem (some item) keep)).1.Stands capacity
      (History.apply capacity (some h) (.goToItem (some item) keep)).1 := by
    rw [hcall, happly]
    exact stands_ofHistory (length_goTo_le hle)
  rcases goTo_cases h item keep with ⟨hnot, hgoTo⟩ | ⟨hmem, hkeep, hgoTo⟩ |
    ⟨hmem, -, hoth, hkeep, hgoTo⟩
  · rw [if_neg hnot] at hcall
    rw [hgoTo] at hcall happly
    apply outcome_of_unchanged (stands_ofHistory hle) hcall happly
    rintro ⟨target, htgt, hmem, -⟩
    exact hnot (Option.some.inj htgt ▸ hmem)
  · rw [if_pos hmem] at hcall
    refine ⟨hstand, ?_, ?_⟩
    · rw [hcall, happly, hgoTo, removedItems_singleton]
    · rw [hcall, happly, hgoTo]
      refine iff_of_true (List.Perm.refl _) ?_
      rintro ⟨target, htgt, -, hoth, hnotKept⟩
      rw [← htgt, hcur] at hoth
      rw [hnotKept] at hkeep
      exact hkeep.elim (fun heq => hoth (congrArg some heq.symm)) nofun
  · rw [if_pos hmem] at hcall
    refine ⟨hstand, ?_, ?_⟩
    · rw [hcall, happly, removedItems_singleton]
    · rw [hcall, happly, hgoTo]
      refine iff_of_false (fun hperm => ?_) (not_not.mpr ⟨item, rfl, hmem, ?_, hkeep⟩)
      · exact absurd hperm.length_eq (by simp)
      · rw [hcur]
        exact fun heq => hoth (Option.some.inj heq).symm

theorem outcome_clear : (ofHistory capacity h).Outcome capacity (some h) .clear := by
  have hcall : (ofHistory capacity h).call .clear = _ := clear_ofHistory
  have happly : History.apply capacity (some h) .clear =
    (some ⟨[], h.current, []⟩, h.back ++ h.forward) := rfl
  have hdefect : (ofHistory capacity h).Defect .clear ↔ h.current ∈ h.back ++ h.forward := by
    have hcur : (ofHistory capacity h).currentItem = some h.current := getElem?_entries h
    have hcnt : h.entries.count h.current = (h.back ++ h.forward).count h.current + 1 := by
      rw [History.entries, count_append, count_cons_self, count_append, Nat.add_assoc]
    have htwice : 2 ≤ h.entries.count h.current ↔ h.current ∈ h.back ++ h.forward := by
      rw [← count_pos_iff, hcnt]
      omega
    rw [← htwice]
    constructor
    · rintro ⟨current, heq, htwice⟩
      cases hcur.symm.trans heq
      exact htwice
    · exact fun htwice => ⟨h.current, hcur, htwice⟩
  have hlen := length_entries h
  by_cases hnil : h.back ++ h.forward = []
  · rw [if_pos hnil] at hcall
    have hsingle : h = ⟨[], h.current, []⟩ := by
      obtain ⟨hback, hforward⟩ := append_eq_nil_iff.mp hnil
      obtain ⟨back, current, forward⟩ := h
      rw [show back = [] from hback, show forward = [] from hforward]
    rw [← hsingle, hnil] at happly
    apply outcome_of_unchanged (stands_ofHistory hle) hcall happly
    rw [hdefect, hnil]
    exact not_mem_nil
  · rw [if_neg hnil] at hcall
    constructor
    · rw [hcall, happly]
      apply stands_ofHistory
      change 1 ≤ capacity
      omega
    · rw [hcall, happly, removedItems_singleton]
    · rw [hcall, happly, hdefect]
      exact perm_filter_ne_iff _ _

end

/-- On an empty list the client is not asked, and nothing is removed. -/
theorem outcome_empty (currentIndex : ℕ) (call : Call α) :
    (⟨[], false, currentIndex, capacity⟩ : BackForwardList α).Outcome capacity none call := by
  have hstand : (⟨[], false, currentIndex, capacity⟩ : BackForwardList α).Stands capacity none :=
    stands_empty capacity currentIndex
  have hnot : ¬(⟨[], false, currentIndex, capacity⟩ : BackForwardList α).Defect call := by
    cases call with
    | addItem newItem keep => exact fun hdefect => Bool.false_ne_true hdefect.2.1
    | goToItem item keep => exact fun ⟨_, _, hmem, _⟩ => not_mem_nil hmem
    | clear => exact nofun
    | removeAllItems => exact not_false
  cases call with
  | addItem newItem keep =>
    cases newItem with
    | none => exact outcome_of_unchanged hstand rfl rfl hnot
    | some item =>
      by_cases hzero : capacity = 0
      · exact outcome_of_unchanged hstand (if_pos hzero) (if_pos hzero) hnot
      · have hcall : (⟨[], false, currentIndex, capacity⟩ : BackForwardList α).call
            (.addItem (some item) keep) =
              (ofHistory capacity ⟨[], item, []⟩, ⟨[], [(some item, [])]⟩) := if_neg hzero
        have happly : History.apply capacity none (.addItem (some item) keep) =
          (some ⟨[], item, []⟩, []) := if_neg hzero
        constructor
        · rw [hcall, happly]
          exact stands_ofHistory (Nat.one_le_iff_ne_zero.mpr hzero)
        · rw [hcall, happly, removedItems_singleton]
        · rw [hcall, happly]
          exact iff_of_true (List.Perm.refl _) hnot
  | goToItem item keep =>
    cases item with
    | none => exact outcome_of_unchanged hstand rfl rfl hnot
    | some item => exact outcome_of_unchanged hstand rfl rfl hnot
  | clear => exact outcome_of_unchanged hstand rfl rfl hnot
  | removeAllItems =>
    exact ⟨stands_empty capacity currentIndex, List.Perm.refl _, iff_of_true (List.Perm.refl _) hnot⟩

/-- Every call has its outcome, from any sound list. -/
theorem outcome (hsound : list.Sound) (call : Call α) :
    list.Outcome list.capacity list.history call := by
  rcases hsound.cases with ⟨h, heq⟩ | ⟨currentIndex, heq⟩
  · have hle : h.entries.length ≤ list.capacity := by
      have hle := hsound.length_le
      rwa [congrArg entries heq] at hle
    have hhistory : list.history = some h := by
      rw [heq, history_ofHistory]
    rw [hhistory, heq]
    cases call with
    | addItem newItem keep =>
      cases newItem with
      | none => exact outcome_of_unchanged (stands_ofHistory hle) rfl rfl fun hdefect => hdefect.1 rfl
      | some item => exact outcome_addItem hle
    | goToItem item keep =>
      cases item with
      | none => exact outcome_of_unchanged (stands_ofHistory hle) rfl rfl nofun
      | some item => exact outcome_goToItem hle
    | clear => exact outcome_clear hle
    | removeAllItems =>
      refine ⟨stands_empty _ _, ?_, iff_of_true (List.Perm.refl _) not_false⟩
      exact List.Perm.of_eq (removedItems_singleton _ _ _)
  · have hhistory : list.history = none := by rw [heq]; rfl
    rw [hhistory, heq]
    exact outcome_empty currentIndex call

theorem sound_step {next : BackForwardList α} {call : Call α} (hsound : list.Sound)
    (hstep : list.step call = some next) : next.Sound := by
  cases hstep
  exact (outcome hsound call).stands.sound

/-- Whatever the client answers, the list is sound in every run and follows the history, and the items
that leave are removed with the changes of the list. -/
theorem always_history (capacity : ℕ) (calls : List (Call α)) : Runs.Always step Sound
      (fun list call => (list.call call).1.history = (History.apply list.capacity list.history call).1 ∧
        (list.call call).2.removedItems.Perm (History.apply list.capacity list.history call).2)
      (empty capacity) calls := by
  have hguard : Runs.Guarded step (fun _ _ => True) (empty capacity) calls :=
    fun _ _ _ _ _ _ => trivial
  apply Runs.always_of_guarded step (fun _ hsound => hsound) _ (sound_empty capacity 0) hguard
  intro list call hsound _
  have hout := outcome hsound call
  exact ⟨⟨hout.stands.history_eq, hout.removedItems⟩, fun next hstep => sound_step hsound hstep⟩

theorem follows_iff (hsound : list.Sound) (call : Call α) :
    list.Follows call ↔ ¬list.Defect call := by
  have hout := outcome hsound call
  rw [← hout.removed_iff]
  exact ⟨fun h => h.removed, fun hrem => ⟨hout.stands.history_eq, hrem, hout.removedItems⟩⟩

/-- The list is sound and follows the history, with all items that leave reported, exactly in the
runs without a defect. -/
theorem always_follows_iff (capacity : ℕ) (calls : List (Call α)) :
    Runs.Always step Sound Follows (empty capacity) calls ↔
      Runs.Guarded step (fun list call => ¬list.Defect call) (empty capacity) calls := by
  apply Runs.always_iff_guarded step (fun _ hsound => hsound)
  · exact fun list call hsound => follows_iff hsound call
  · exact fun list call next hsound _ hstep => sound_step hsound hstep
  · exact sound_empty capacity 0

end Items

/-- The second item takes the place of the first, which the client does not keep, and the first one is
not reported as removed. -/
theorem not_always_follows_notKept : ¬Runs.Always step Sound Follows (empty 100 : BackForwardList ℕ)
      [.addItem (some 1) true, .addItem (some 2) false] := by
  intro halways
  have hfol : Follows (⟨[1], true, 0, 100⟩ : BackForwardList ℕ) (.addItem (some 2) false) :=
    (halways [.addItem (some 1) true] _ _ rfl rfl).2 _ _ rfl
  exact absurd hfol.removed.length_eq (by decide +kernel)

end Calls

end BackForwardList

end WebKit.BackForward
