import WebKit.ContentExtensions.ContentExtensionRule
import WebKit.Foundation.HashMaps

/-!
`serializeActions` gives every rule the location of its action in one byte vector, and
`actionsForResourceLoad` reads the actions of the matching rules from the highest location
down to the first ignore-previous-rules action. Actions are shared between two such rules,
and the CSS selectors of equal triggers are collected and written at the end of the segment
as one selector. Locations grow from segment to segment, so the backward walk finds exactly
the matching rules behind the last matching ignore-previous-rules rule.
-/
namespace WebKit.ContentExtensions

open List HashMaps
open Option hiding all_eq_true any_eq_false
open Prod (fst snd)

namespace ContentExtensionRule

def ignores (rule : ContentExtensionRule) : Bool := rule.actionType = .ignorePreviousRules

def deferred (rule : ContentExtensionRule) : Bool :=
  rule.actionType = .cssDisplayNoneSelector && rule.trigger.domains.isEmpty

end ContentExtensionRule

/-- `StringBuilder::append(const String&)`. An eight-bit builder stays one when a single
sixteen-bit unit below 256 is appended. -/
def appendString (builder string : WTFString) : WTFString :=
  if string.characters = [] then builder
  else if builder.characters = [] then string
  else
    { characters := builder.characters ++ string.characters
      is8Bit := builder.is8Bit && (string.is8Bit ||
        (string.characters.length == 1 && string.characters.all (fun c => c.toNat < 256)))
      narrow := by
        intro hwidth c hc
        simp only [Bool.and_eq_true, Bool.or_eq_true, beq_iff_eq, all_eq_true,
          decide_eq_true_eq] at hwidth
        rcases mem_append.mp hc with hc | hc
        · exact builder.narrow hwidth.1 c hc
        · rcases hwidth.2 with hstring | ⟨-, hall⟩
          · exact string.narrow hstring c hc
          · exact hall c hc }

def appendComma (builder : WTFString) : WTFString where
  characters := builder.characters ++ [44]
  is8Bit := builder.is8Bit
  narrow := by
    intro hwidth c hc
    rcases mem_append.mp hc with hc | hc
    · exact builder.narrow hwidth c hc
    · rw [mem_singleton.mp hc]
      decide

def combineSelectors : List WTFString → WTFString
  | [] => ⟨true, [], by simp⟩
  | first :: rest =>
      rest.foldl (fun builder selector => appendString (appendComma builder) selector)
        (appendString ⟨true, [], by simp⟩ first)

structure PendingDisplayNoneActions where
  selectors : List WTFString
  clientLocations : List ℕ

/-- The variables of `serializeActions`. `actionsMap` holds the four maps from flags to
locations, one for each action type that can be shared. -/
structure Serializer where
  actions : List UInt8
  actionLocations : List ℕ
  actionsMap : ActionType → List (ℕ × ℕ)
  cssDisplayNoneActionsMap : List (Trigger × PendingDisplayNoneActions)

def setLocations (actionLocations clientLocations : List ℕ) (actionLocation : ℕ) : List ℕ :=
  clientLocations.foldl (fun locations client => locations.set client actionLocation)
    actionLocations

def resolveEntry (state : List UInt8 × List ℕ) (pending : PendingDisplayNoneActions) :
    List UInt8 × List ℕ :=
  (state.1 ++ serializeSelector (combineSelectors pending.selectors),
    setLocations state.2 pending.clientLocations state.1.length)

variable (iteration : IterationOrder PendingDisplayNoneActions) (s : Serializer)

def resolvePendingDisplayNoneActions : Serializer :=
  let resolved := (iteration.order (s.cssDisplayNoneActionsMap.map snd)).foldl resolveEntry
    (s.actions, s.actionLocations)
  { s with
    actions := resolved.1
    actionLocations := resolved.2
    cssDisplayNoneActionsMap := [] }

variable (rule : ContentExtensionRule)

def startRule : Serializer :=
  if rule.actionType = .ignorePreviousRules then
    let resolved := resolvePendingDisplayNoneActions iteration s
    { resolved with
      actionsMap := fun type =>
        if type = .ignorePreviousRules then resolved.actionsMap type else [] }
  else
    { s with actionsMap := Function.update s.actionsMap .ignorePreviousRules [] }

def addPending (map : List (Trigger × PendingDisplayNoneActions)) (trigger : Trigger)
    (selector : WTFString) (client : ℕ) : List (Trigger × PendingDisplayNoneActions) :=
  match map with
  | [] => [(trigger, ⟨[selector], [client]⟩)]
  | (key, pending) :: rest =>
      if key = trigger then
        (key, ⟨pending.selectors ++ [selector], pending.clientLocations ++ [client]⟩) :: rest
      else
        (key, pending) :: addPending rest trigger selector client

def placeRule : Serializer :=
  if rule.trigger.domains ≠ [] then
    { s with
      actionLocations := s.actionLocations ++ [s.actions.length]
      actions := s.actions ++ serializeAction rule.actionType rule.stringArgument }
  else if rule.actionType = .cssDisplayNoneSelector then
    { s with
      cssDisplayNoneActionsMap := addPending s.cssDisplayNoneActionsMap rule.trigger
        rule.stringArgument s.actionLocations.length
      actionLocations := s.actionLocations ++ [2 ^ 32 - 1] }
  else
    match (s.actionsMap rule.actionType).lookup rule.trigger.flags with
    | some actionLocation => { s with actionLocations := s.actionLocations ++ [actionLocation] }
    | none =>
      { s with
        actions := s.actions ++ [rule.actionType.toByte]
        actionsMap := Function.update s.actionsMap rule.actionType
          ((rule.trigger.flags, s.actions.length) :: s.actionsMap rule.actionType)
        actionLocations := s.actionLocations ++ [s.actions.length] }

def serializeRule : Serializer :=
  placeRule (startRule iteration s rule) rule

def emptySerializer : Serializer := ⟨[], [], fun _ => [], []⟩

variable (ruleList : List ContentExtensionRule)

/-- The locations of the rules and the bytes. A vector has at most 2 ^ 32 - 1 elements; the
program is stopped before it grows further. -/
def serializeActions : Option (List ℕ × List UInt8) :=
  let s := resolvePendingDisplayNoneActions iteration
    (ruleList.foldl (serializeRule iteration) emptySerializer)
  if s.actions.length < 2 ^ 32 then some (s.actionLocations, s.actions) else none

def addActions (actions : List UInt8) : List ℕ → List Action → Option (List Action × Bool)
  | [], finalActions => some (finalActions, false)
  | location :: rest, finalActions =>
    match deserialize actions location with
    | none => none
    | some action =>
      if action.type = .ignorePreviousRules then some (finalActions, true)
      else addActions actions rest (finalActions ++ [action])

def actionsForResourceLoad (identifier : List UInt16) (actions : List UInt8)
    (actionLocations : List ℕ) : Option (List Action) :=
  match addActions actions (actionLocations.mergeSort (· ≤ ·)).reverse [] with
  | none => none
  | some (finalActions, true) => some finalActions
  | some (finalActions, false) =>
      some (finalActions ++ [⟨.cssDisplayNoneStyleSheet, identifier, 2 ^ 32 - 1⟩])

def segmentAt (k : ℕ) : ℕ :=
  (ruleList.take k).countP ContentExtensionRule.ignores

def isClient (trigger : Trigger) (segment j : ℕ) : Bool :=
  match ruleList[j]? with
  | none => false
  | some rule =>
      rule.deferred && rule.trigger == trigger && segmentAt ruleList (j + 1) == segment

def clients (k : ℕ) (trigger : Trigger) (segment : ℕ) : List ℕ :=
  (range k).filter (isClient ruleList trigger segment)

def selectorsAt (positions : List ℕ) : List WTFString :=
  positions.filterMap fun j => ruleList[j]?.map ContentExtensionRule.stringArgument

variable (selectors : List WTFString) {actions : List UInt8} {actionLocations : List ℕ}
variable {trigger : Trigger}

def commaJoined : List UInt16 :=
  intercalate [44] (selectors.map WTFString.characters)

/-- The action type and the CSS selector of the rule at `j`, where `together` picks the rules
whose selectors are delivered with it. -/
def delivered (together : List ℕ) (rule : ContentExtensionRule) : ActionType × List UInt16 :=
  (rule.actionType,
    if rule.deferred then commaJoined (selectorsAt ruleList together)
    else if rule.actionType = .cssDisplayNoneSelector then rule.stringArgument.characters
    else [])

@[simp] theorem appendString_characters (builder string : WTFString) :
    (appendString builder string).characters = builder.characters ++ string.characters := by
  unfold appendString
  split_ifs with hstring hbuild
  · simp [hstring]
  · simp [hbuild]
  · rfl

theorem foldl_append_characters (builder : WTFString) :
    (selectors.foldl (fun builder selector => appendString (appendComma builder) selector)
        builder).characters =
      intercalate [44] (builder.characters :: selectors.map WTFString.characters) := by
  induction selectors generalizing builder with
  | nil => simp
  | cons selector selectors ih =>
    rw [foldl_cons, ih, map_cons, intercalate_cons_cons]
    cases selectors with
    | nil => simp [appendComma]
    | cons next rest => simp [appendComma, intercalate_cons_cons]

theorem combineSelectors_characters :
    (combineSelectors selectors).characters = commaJoined selectors := by
  cases selectors with
  | nil => rfl
  | cons first rest =>
    rw [combineSelectors, foldl_append_characters]
    simp [commaJoined]

section Locations

variable {actionLocations clientLocations : List ℕ} {actionLocation : ℕ}

@[simp] theorem length_setLocations :
    (setLocations actionLocations clientLocations actionLocation).length =
      actionLocations.length := by
  induction clientLocations generalizing actionLocations with
  | nil => rfl
  | cons client rest ih =>
    rw [setLocations, foldl_cons]
    exact ih.trans (length_set ..)

theorem setLocations_of_not_mem {i : ℕ} (h : i ∉ clientLocations) :
    (setLocations actionLocations clientLocations actionLocation)[i]? = actionLocations[i]? := by
  induction clientLocations generalizing actionLocations with
  | nil => rfl
  | cons client rest ih =>
    obtain ⟨hne, hrest⟩ := not_or.mp (mem_cons.not.mp h)
    rw [setLocations, foldl_cons]
    exact (ih hrest).trans (getElem?_set_ne (Ne.symm hne))

theorem setLocations_of_mem {i : ℕ} (h : i ∈ clientLocations) (hi : i < actionLocations.length) :
    (setLocations actionLocations clientLocations actionLocation)[i]? = some actionLocation := by
  induction clientLocations generalizing actionLocations with
  | nil => cases h
  | cons client rest ih =>
    rw [setLocations, foldl_cons]
    by_cases hrest : i ∈ rest
    · exact ih hrest (by simpa using hi)
    · obtain rfl : i = client := (mem_cons.mp h).resolve_right hrest
      exact (setLocations_of_not_mem hrest).trans (getElem?_set_self hi)

end Locations

theorem prefix_foldl_resolveEntry (entries : List PendingDisplayNoneActions)
    (state : List UInt8 × List ℕ) : state.1 <+: (entries.foldl resolveEntry state).1 := by
  induction entries generalizing state with
  | nil => exact prefix_refl _
  | cons first rest ih =>
    have hfst : state.1 <+: (resolveEntry state first).1 := prefix_append _ _
    exact hfst.trans (ih _)

theorem prefix_startRule : s.actions <+: (startRule iteration s rule).actions := by
  unfold startRule
  split
  · exact prefix_foldl_resolveEntry _ (s.actions, s.actionLocations)
  · exact prefix_refl _

theorem prefix_placeRule : s.actions <+: (placeRule s rule).actions := by
  unfold placeRule
  split_ifs
  · exact prefix_append _ _
  · exact prefix_refl _
  · split
    · exact prefix_refl _
    · exact prefix_append _ _

theorem prefix_foldl_serializeRule (rules : List ContentExtensionRule) (s : Serializer) :
    s.actions <+: (rules.foldl (serializeRule iteration) s).actions := by
  induction rules generalizing s with
  | nil => exact prefix_refl _
  | cons rule rules ih =>
    exact ((prefix_startRule iteration s rule).trans (prefix_placeRule _ rule)).trans (ih _)

theorem addPending_keys (map : List (Trigger × PendingDisplayNoneActions)) (trigger : Trigger)
    (selector : WTFString) (client : ℕ) :
    (addPending map trigger selector client).map fst =
      if trigger ∈ map.map fst then map.map fst else map.map fst ++ [trigger] := by
  induction map with
  | nil => rfl
  | cons entry rest ih =>
    obtain ⟨key, pending⟩ := entry
    by_cases hkey : key = trigger
    · simp [addPending, hkey]
    · simp only [addPending, if_neg hkey, map_cons, ih, mem_cons, Ne.symm hkey, false_or]
      split_ifs <;> rfl

/-- Adding a selector extends the entry of its trigger or makes a new one. -/
theorem mem_addPending {map : List (Trigger × PendingDisplayNoneActions)}
    {selector : WTFString} {client : ℕ} {entry : Trigger × PendingDisplayNoneActions}
    (hkeys : (map.map fst).Nodup) (h : entry ∈ addPending map trigger selector client) :
    entry.1 ≠ trigger ∧ entry ∈ map ∨
    entry.1 = trigger ∧ ((∃ old, (trigger, old) ∈ map ∧
          entry.2 = ⟨old.selectors ++ [selector], old.clientLocations ++ [client]⟩) ∨
        trigger ∉ map.map fst ∧ entry.2 = ⟨[selector], [client]⟩) := by
  induction map with
  | nil =>
    rw [addPending, mem_singleton] at h
    subst h
    exact .inr ⟨rfl, .inr ⟨not_mem_nil, rfl⟩⟩
  | cons first rest ih =>
    obtain ⟨key, pending⟩ := first
    obtain ⟨hfresh, hkeys⟩ := nodup_cons.mp hkeys
    by_cases hkey : key = trigger
    · subst hkey
      rw [addPending, if_pos rfl, mem_cons] at h
      rcases h with rfl | h
      · exact .inr ⟨rfl, .inl ⟨pending, mem_cons_self, rfl⟩⟩
      · refine .inl ⟨?_, mem_cons_of_mem _ h⟩
        intro heq
        exact hfresh (mem_map.mpr ⟨entry, h, heq⟩)
    · rw [addPending, if_neg hkey, mem_cons] at h
      rcases h with rfl | h
      · exact .inl ⟨hkey, mem_cons_self⟩
      · rcases ih hkeys h with ⟨hne, hmem⟩ | ⟨heq, ⟨old, hmem, hold⟩ | ⟨hnone, hnew⟩⟩
        · exact .inl ⟨hne, mem_cons_of_mem _ hmem⟩
        · exact .inr ⟨heq, .inl ⟨old, mem_cons_of_mem _ hmem, hold⟩⟩
        · have hnone := not_mem_cons_of_ne_of_not_mem (Ne.symm hkey) hnone
          exact .inr ⟨heq, .inr ⟨hnone, hnew⟩⟩

/-- Resolving pending entries with disjoint clients: everything stored stays, and each client
gets a new location from which the joined selector is read back. -/
theorem foldl_resolveEntry {entries : List PendingDisplayNoneActions} {final : List UInt8}
    (hdisj : entries.Pairwise fun p q => p.clientLocations.Disjoint q.clientLocations)
    (hbound : ∀ p ∈ entries, ∀ c ∈ p.clientLocations, c < actionLocations.length)
    (hfinal : (entries.foldl resolveEntry (actions, actionLocations)).1 <+: final)
    (hsize : final.length < 2 ^ 32) :
    let resolved := entries.foldl resolveEntry (actions, actionLocations)
    resolved.2.length = actionLocations.length ∧
      (∀ i, (∀ p ∈ entries, i ∉ p.clientLocations) → resolved.2[i]? = actionLocations[i]?) ∧
      ∀ p ∈ entries, ∀ i ∈ p.clientLocations, ∃ l, resolved.2[i]? = some l ∧
        actions.length ≤ l ∧ l < resolved.1.length ∧
        deserialize final l = some ⟨.cssDisplayNoneSelector, commaJoined p.selectors, l⟩ := by
  induction entries generalizing actions actionLocations with
  | nil =>
    exact ⟨rfl, fun _ _ => rfl, nofun⟩
  | cons first rest ih =>
    obtain ⟨hfst, hrest⟩ := pairwise_cons.mp hdisj
    rw [foldl_cons] at hfinal ⊢
    have hbound' : ∀ p ∈ rest, ∀ c ∈ p.clientLocations,
        c < (setLocations actionLocations first.clientLocations actions.length).length := by
      intro p hp c hc
      rw [length_setLocations]
      exact hbound p (mem_cons_of_mem _ hp) c hc
    obtain ⟨hlen, hoth, hclient⟩ := ih hrest hbound' hfinal
    have hgrow : actions <+: (resolveEntry (actions, actionLocations) first).1 :=
      prefix_append _ _
    have hinit := prefix_foldl_resolveEntry rest (resolveEntry (actions, actionLocations) first)
    refine ⟨hlen.trans length_setLocations, ?_, ?_⟩
    · intro i hi
      exact (hoth i fun p hp => hi p (mem_cons_of_mem _ hp)).trans
        (setLocations_of_not_mem (hi first mem_cons_self))
    · intro p hp i hi
      rcases mem_cons.mp hp with rfl | hp
      · refine ⟨actions.length, ?_, le_rfl, ?_, ?_⟩
        · exact (hoth i fun q hq => hfst q hq hi).trans
            (setLocations_of_mem hi (hbound p mem_cons_self i hi))
        · refine lt_of_lt_of_le ?_ hinit.length_le
          simp [resolveEntry, length_serializeSelector]
        · obtain ⟨after, hafter⟩ := hinit.trans hfinal
          rw [← hafter] at hsize ⊢
          rw [← combineSelectors_characters]
          exact deserialize_serializeSelector actions after _ hsize
      · obtain ⟨l, hl, hle, hlt, hread⟩ := hclient p hp i hi
        exact ⟨l, hl, hgrow.length_le.trans hle, hlt, hread⟩

section Segments

variable {rules : List ContentExtensionRule} {rule : ContentExtensionRule} {k : ℕ}

theorem segmentAt_succ (h : rules[k]? = some rule) :
    segmentAt rules (k + 1) = segmentAt rules k + if rule.ignores then 1 else 0 := by
  rw [segmentAt, segmentAt, take_add_one, h]
  simp [countP_append, countP_singleton]

theorem segmentAt_mono {i j : ℕ} (h : i ≤ j) : segmentAt rules i ≤ segmentAt rules j :=
  (take_sublist_take_left h).countP_le

theorem isClient_iff {segment j : ℕ} :
    isClient rules trigger segment j ↔ ∃ rule, rules[j]? = some rule ∧
      rule.deferred ∧ rule.trigger = trigger ∧ segmentAt rules (j + 1) = segment := by
  unfold isClient
  split
  · rename_i hnone
    simp [hnone]
  · rename_i rule hsome
    simp [hsome, and_assoc]

theorem mem_clients {segment j : ℕ} :
    j ∈ clients rules k trigger segment ↔ j < k ∧ ∃ rule, rules[j]? = some rule ∧
      rule.deferred ∧ rule.trigger = trigger ∧ segmentAt rules (j + 1) = segment := by
  rw [clients, mem_filter, mem_range, isClient_iff]

theorem clients_succ (trigger : Trigger) (segment : ℕ) :
    clients rules (k + 1) trigger segment = clients rules k trigger segment ++
      if isClient rules trigger segment k then [k] else [] := by
  rw [clients, clients, range_succ, filter_append]
  congr 1
  cases h : isClient rules trigger segment k <;> simp [h]

/-- Once a segment has ended its clients are complete. -/
theorem clients_eq_of_ended {n : ℕ} (trigger : Trigger) {segment : ℕ} (hkn : k ≤ n)
    (hended : ∀ j rule, k ≤ j → rules[j]? = some rule → segmentAt rules (j + 1) ≠ segment) :
    clients rules n trigger segment = clients rules k trigger segment := by
  induction n, hkn using Nat.le_induction with
  | base => rfl
  | succ n hkn ih =>
    have hnot : isClient rules trigger segment n = false := by
      rw [Bool.eq_false_iff]
      intro h
      obtain ⟨rule, hrule, -, -, hseg⟩ := isClient_iff.mp h
      exact hended n rule hkn hrule hseg
    rw [clients_succ, hnot, ih]
    simp

theorem deferred_actionType (h : rule.deferred) :
    rule.actionType = .cssDisplayNoneSelector := by
  simp only [ContentExtensionRule.deferred, Bool.and_eq_true, decide_eq_true_eq] at h
  exact h.1

theorem deferred_not_ignores (h : rule.deferred) : rule.ignores = false := by
  simp [ContentExtensionRule.ignores, deferred_actionType h]

end Segments

def Awaits (segment j : ℕ) (rule : ContentExtensionRule) : Prop :=
  rule.deferred = true ∧ segmentAt ruleList (j + 1) = segment

def ReadsBack (final : List UInt8) (location : ℕ) (action : ActionType × List UInt16) : Prop :=
  deserialize final location = some ⟨action.1, action.2, location⟩

def wholeDelivery (j : ℕ) (rule : ContentExtensionRule) : ActionType × List UInt16 :=
  delivered ruleList
    (clients ruleList ruleList.length rule.trigger (segmentAt ruleList (j + 1))) rule

/-- The state after the first `k` rules, where the selectors of `segment` are still pending.
Locations are read in the final vector, of which the vector so far is a part. -/
structure Invariant (ruleList : List ContentExtensionRule) (final : List UInt8) (k segment : ℕ)
    (s : Serializer) : Prop where
  length_eq : s.actionLocations.length = k
  located : ∀ {j : ℕ} {rule : ContentExtensionRule}, j < k → ruleList[j]? = some rule →
    ¬ Awaits ruleList segment j rule →
    ∃ l, s.actionLocations[j]? = some l ∧ l < s.actions.length ∧
      ReadsBack final l (wholeDelivery ruleList j rule)
  ordered : ∀ {i j l m : ℕ} {ri rj : ContentExtensionRule}, i < j → j < k →
    ruleList[i]? = some ri → ruleList[j]? = some rj → ri.ignores ≠ rj.ignores →
    ¬ Awaits ruleList segment i ri → ¬ Awaits ruleList segment j rj →
    s.actionLocations[i]? = some l → s.actionLocations[j]? = some m → l < m
  map_reads : ∀ {type : ActionType} {entry : ℕ × ℕ}, entry ∈ s.actionsMap type →
    entry.2 < s.actions.length ∧ ReadsBack final entry.2 (type, [])
  map_above : ∀ {type : ActionType} {entry : ℕ × ℕ} {i l : ℕ} {ri : ContentExtensionRule},
    entry ∈ s.actionsMap type → i < k → ruleList[i]? = some ri →
    ri.ignores ≠ decide (type = .ignorePreviousRules) → ¬ Awaits ruleList segment i ri →
    s.actionLocations[i]? = some l → l < entry.2
  ignored_or_pending : s.actionsMap .ignorePreviousRules ≠ [] → s.cssDisplayNoneActionsMap = []
  pending : ∀ {entry : Trigger × PendingDisplayNoneActions}, entry ∈ s.cssDisplayNoneActionsMap →
    entry.2.clientLocations = clients ruleList k entry.1 segment ∧
      entry.2.selectors = selectorsAt ruleList entry.2.clientLocations
  pending_keys : (s.cssDisplayNoneActionsMap.map fst).Nodup
  pending_all : ∀ {j : ℕ} {rule : ContentExtensionRule}, j < k → ruleList[j]? = some rule →
    Awaits ruleList segment j rule → rule.trigger ∈ s.cssDisplayNoneActionsMap.map fst

namespace Invariant

variable {rules : List ContentExtensionRule} {final : List UInt8} {k segment : ℕ}
  {s : Serializer} {rule : ContentExtensionRule}

theorem init (rules : List ContentExtensionRule) (final : List UInt8) :
    Invariant rules final 0 0 emptySerializer where
  length_eq := rfl
  located := fun h => absurd h (Nat.not_lt_zero _)
  ordered := fun _ h => absurd h (Nat.not_lt_zero _)
  map_reads := nofun
  map_above := nofun
  ignored_or_pending := fun _ => rfl
  pending := nofun
  pending_keys := nodup_nil
  pending_all := fun h => absurd h (Nat.not_lt_zero _)

section

variable (h : Invariant rules final k segment s)

include h

/-- Forgetting shared locations loses nothing. -/
theorem forget {actionsMap : ActionType → List (ℕ × ℕ)}
    (hsub : ∀ type, actionsMap type = s.actionsMap type ∨ actionsMap type = []) :
    Invariant rules final k segment { s with actionsMap := actionsMap } := by
  have hmem : ∀ {type entry}, entry ∈ actionsMap type → entry ∈ s.actionsMap type := by
    intro type entry hent
    rcases hsub type with heq | hnil
    · exact heq ▸ hent
    · rw [hnil] at hent
      cases hent
  refine { h with
    map_reads := fun he => h.map_reads (hmem he)
    map_above := fun he => h.map_above (hmem he)
    ignored_or_pending := fun hne => h.ignored_or_pending ?_ }
  rcases hsub .ignorePreviousRules with heq | hnil
  · exact heq ▸ hne
  · exact absurd hnil hne

theorem pending_disjoint : (s.cssDisplayNoneActionsMap.map snd).Pairwise
      fun p q => p.clientLocations.Disjoint q.clientLocations := by
  have hkeys := pairwise_map.mp h.pending_keys
  refine pairwise_map.mpr (hkeys.imp_of_mem ?_)
  intro p q hp hq hne j hjp hjq
  rw [(h.pending hp).1] at hjp
  rw [(h.pending hq).1] at hjq
  obtain ⟨-, rule, hrule, -, htrigger, -⟩ := mem_clients.mp hjp
  obtain ⟨-, rule', hrule', -, htrigger', -⟩ := mem_clients.mp hjq
  cases hrule.symm.trans hrule'
  exact hne (htrigger.symm.trans htrigger')

section

variable (hinit : (resolvePendingDisplayNoneActions iteration s).actions <+: final)
  (hsize : final.length < 2 ^ 32)

include hinit hsize

/-- What resolving does to the locations: those of waiting rules become new ones, behind all
the old ones, and the others stay. -/
theorem resolve_locations : let resolved := resolvePendingDisplayNoneActions iteration s
    resolved.actionLocations.length = k ∧ s.actions.length ≤ resolved.actions.length ∧
    ∀ {j rule}, j < k → rules[j]? = some rule → (¬ Awaits rules segment j rule →
        resolved.actionLocations[j]? = s.actionLocations[j]?) ∧
      (Awaits rules segment j rule → ∃ l, resolved.actionLocations[j]? = some l ∧
        s.actions.length ≤ l ∧ l < resolved.actions.length ∧
        ReadsBack final l (delivered rules (clients rules k rule.trigger segment) rule)) := by
  have hperm := iteration.perm (s.cssDisplayNoneActionsMap.map snd)
  have hent : ∀ p ∈ iteration.order (s.cssDisplayNoneActionsMap.map snd),
      ∃ trigger, (trigger, p) ∈ s.cssDisplayNoneActionsMap := by
    intro p hp
    obtain ⟨⟨trigger, q⟩, hq, rfl⟩ := mem_map.mp (hperm.mem_iff.mp hp)
    exact ⟨trigger, hq⟩
  have hbound : ∀ p ∈ iteration.order (s.cssDisplayNoneActionsMap.map snd),
      ∀ c ∈ p.clientLocations, c < s.actionLocations.length := by
    intro p hp c hc
    obtain ⟨trigger, hmem⟩ := hent p hp
    rw [(h.pending hmem).1] at hc
    rw [h.length_eq]
    exact (mem_clients.mp hc).1
  have hdisj := (hperm.pairwise_iff fun hpq => hpq.symm).mpr h.pending_disjoint
  obtain ⟨hlen, hoth, hclient⟩ := foldl_resolveEntry hdisj hbound hinit hsize
  refine ⟨hlen.trans h.length_eq,
    (prefix_foldl_resolveEntry _ (s.actions, s.actionLocations)).length_le, ?_⟩
  intro j rule hj hrule
  constructor
  · intro hnot
    apply hoth
    intro p hp hc
    obtain ⟨trigger, hmem⟩ := hent p hp
    rw [(h.pending hmem).1] at hc
    obtain ⟨-, rule', hrule', hdefer, -, hseg⟩ := mem_clients.mp hc
    cases hrule.symm.trans hrule'
    exact hnot ⟨hdefer, hseg⟩
  · intro hawaits
    obtain ⟨⟨trigger, p⟩, hmem, htrigger⟩ := mem_map.mp (h.pending_all hj hrule hawaits)
    obtain ⟨hclients, hsels⟩ := h.pending hmem
    have hin : j ∈ p.clientLocations := by
      rw [hclients, htrigger]
      exact mem_clients.mpr ⟨hj, rule, hrule, hawaits.1, rfl, hawaits.2⟩
    have hp : p ∈ iteration.order (s.cssDisplayNoneActionsMap.map snd) :=
      hperm.mem_iff.mpr (mem_map_of_mem hmem)
    obtain ⟨l, hl, hle, hlt, hread⟩ := hclient p hp j hin
    refine ⟨l, hl, hle, hlt, ?_⟩
    rw [hsels, hclients, htrigger] at hread
    simpa [ReadsBack, delivered, hawaits.1, deferred_actionType] using hread

/-- Resolving at the end of a segment leaves nothing waiting. -/
theorem resolve (hkn : k ≤ rules.length) (hstart : segmentAt rules k ≤ segment)
    (hended : ∀ j rule, k ≤ j → rules[j]? = some rule → segmentAt rules (j + 1) ≠ segment) :
    Invariant rules final k (segment + 1) (resolvePendingDisplayNoneActions iteration s) := by
  obtain ⟨hlen, hgrow, hlocs⟩ := h.resolve_locations iteration hinit hsize
  have hbefore : ∀ j, j < k → segmentAt rules (j + 1) ≤ segment := by
    intro j hj
    exact (segmentAt_mono hj).trans hstart
  refine ⟨hlen, ?_, ?_, ?_, ?_, ?_, ?_, ?_, ?_⟩
  · intro j rule hj hrule _
    by_cases hawaits : Awaits rules segment j rule
    · obtain ⟨l, hl, -, hlt, hread⟩ := (hlocs hj hrule).2 hawaits
      refine ⟨l, hl, hlt, ?_⟩
      rw [wholeDelivery, hawaits.2, clients_eq_of_ended rule.trigger hkn hended]
      exact hread
    · obtain ⟨l, hl, hlt, hread⟩ := h.located hj hrule hawaits
      exact ⟨l, ((hlocs hj hrule).1 hawaits).trans hl, hlt.trans_le hgrow, hread⟩
  · intro i j l m ri rj hij hj hri hrj hkind _ _ hl hm
    have hi : i < k := hij.trans hj
    by_cases hwi : Awaits rules segment i ri
    · have hign : rj.ignores := by
        rw [deferred_not_ignores hwi.1] at hkind
        simpa using hkind.symm
      have hmono : segmentAt rules (i + 1) ≤ segmentAt rules j := segmentAt_mono (by omega)
      have hle := hbefore j hj
      rw [segmentAt_succ hrj, if_pos hign] at hle
      rw [hwi.2] at hmono
      omega
    · rw [(hlocs hi hri).1 hwi] at hl
      by_cases hwj : Awaits rules segment j rj
      · obtain ⟨m', hm', hle, -, -⟩ := (hlocs hj hrj).2 hwj
        obtain ⟨l', hl', hlt, -⟩ := h.located hi hri hwi
        cases hm'.symm.trans hm
        cases hl'.symm.trans hl
        exact hlt.trans_le hle
      · rw [(hlocs hj hrj).1 hwj] at hm
        exact h.ordered hij hj hri hrj hkind hwi hwj hl hm
  · intro type entry hent
    obtain ⟨hlt, hread⟩ := h.map_reads hent
    exact ⟨hlt.trans_le hgrow, hread⟩
  · intro type entry i l ri hent hi hri hkind _ hl
    have hnot : ¬ Awaits rules segment i ri := by
      intro hwi
      rw [deferred_not_ignores hwi.1] at hkind
      have htype : type = .ignorePreviousRules := by simpa using hkind.symm
      have hnil := h.ignored_or_pending (ne_nil_of_mem (htype ▸ hent))
      have hmem := h.pending_all hi hri hwi
      rw [hnil] at hmem
      cases hmem
    rw [(hlocs hi hri).1 hnot] at hl
    exact h.map_above hent hi hri hkind hnot hl
  · exact fun _ => rfl
  · intro entry hent
    cases hent
  · exact nodup_nil
  · intro j rule hj hrule hawaits
    have hle := hbefore j hj
    rw [hawaits.2] at hle
    omega

end

/-- A rule whose location is known at once: new, or shared with an earlier rule of the same
kind. -/
theorem place (hrule : rules[k]? = some rule)
    (hdefer : rule.deferred = false) (hign : rule.ignores → s.cssDisplayNoneActionsMap = [])
    {s' : Serializer} {m : ℕ} (hmaps : ∀ {type entry}, entry ∈ s'.actionsMap type →
        rule.ignores = decide (type = .ignorePreviousRules) ∧
          (entry ∈ s.actionsMap type ∨ entry.2 = m ∧ ReadsBack final m (type, [])))
    (hlocs : s'.actionLocations = s.actionLocations ++ [m])
    (hcss : s'.cssDisplayNoneActionsMap = s.cssDisplayNoneActionsMap)
    (hgrow : s.actions.length ≤ s'.actions.length) (hm : m < s'.actions.length)
    (hread : ReadsBack final m (wholeDelivery rules k rule))
    (habove : ∀ {i l ri}, i < k → rules[i]? = some ri →
      ri.ignores ≠ rule.ignores → ¬ Awaits rules segment i ri →
      s.actionLocations[i]? = some l → l < m) :
    Invariant rules final (k + 1) segment s' := by
  have hold : ∀ {j}, j < k → s'.actionLocations[j]? = s.actionLocations[j]? := by
    intro j hj
    rw [hlocs, getElem?_append_left (by rw [h.length_eq]; exact hj)]
  have hnew : s'.actionLocations[k]? = some m := by
    rw [hlocs, ← h.length_eq, getElem?_concat_length]
  have hclient : ∀ trigger, clients rules (k + 1) trigger segment =
      clients rules k trigger segment := by
    intro trigger
    have hnot : isClient rules trigger segment k = false := by
      simp [isClient, hrule, hdefer]
    rw [clients_succ, hnot]
    simp
  refine ⟨?_, ?_, ?_, ?_, ?_, ?_, ?_, ?_, ?_⟩
  · rw [hlocs, length_append, h.length_eq]
    rfl
  · intro j rule' hj hrule' hnot
    rcases Nat.lt_succ_iff_lt_or_eq.mp hj with hj | rfl
    · obtain ⟨l, hl, hlt, hread'⟩ := h.located hj hrule' hnot
      exact ⟨l, (hold hj).trans hl, hlt.trans_le hgrow, hread'⟩
    · cases hrule.symm.trans hrule'
      exact ⟨m, hnew, hm, hread⟩
  · intro i j l m' ri rj hij hj hri hrj hkind hwi hwj hl hm'
    rw [hold (by omega)] at hl
    rcases Nat.lt_succ_iff_lt_or_eq.mp hj with hj | rfl
    · rw [hold hj] at hm'
      exact h.ordered hij hj hri hrj hkind hwi hwj hl hm'
    · cases hrule.symm.trans hrj
      cases hnew.symm.trans hm'
      exact habove hij hri hkind hwi hl
  · intro type entry hent
    rcases (hmaps hent).2 with hent | ⟨heq, hread'⟩
    · obtain ⟨hlt, hread'⟩ := h.map_reads hent
      exact ⟨hlt.trans_le hgrow, hread'⟩
    · rw [heq]
      exact ⟨hm, hread'⟩
  · intro type entry i l ri hent hi hri hkind hwi hl
    obtain ⟨hsame, hent⟩ := hmaps hent
    have hik : i < k := by
      rcases Nat.lt_succ_iff_lt_or_eq.mp hi with hi | rfl
      · exact hi
      · cases hrule.symm.trans hri
        exact absurd hsame hkind
    rw [hold hik] at hl
    rcases hent with hent | ⟨heq, -⟩
    · exact h.map_above hent hik hri hkind hwi hl
    · rw [heq]
      exact habove hik hri (hsame ▸ hkind) hwi hl
  · intro hne
    obtain ⟨entry, hent⟩ := exists_mem_of_ne_nil _ hne
    rw [hcss]
    exact hign (by simpa using (hmaps hent).1)
  · intro entry hent
    rw [hcss] at hent
    rw [hclient]
    exact h.pending hent
  · rw [hcss]
    exact h.pending_keys
  · intro j rule' hj hrule' hawaits
    rw [hcss]
    rcases Nat.lt_succ_iff_lt_or_eq.mp hj with hj | rfl
    · exact h.pending_all hj hrule' hawaits
    · cases hrule.symm.trans hrule'
      rw [hawaits.1] at hdefer
      cases hdefer

/-- A selector that is collected with the others of its trigger. -/
theorem defer (hrule : rules[k]? = some rule)
    (hdefer : rule.deferred) (hseg : segmentAt rules (k + 1) = segment)
    (hignored : s.actionsMap .ignorePreviousRules = []) (placeholder : ℕ) :
    Invariant rules final (k + 1) segment
      { s with
        cssDisplayNoneActionsMap := addPending s.cssDisplayNoneActionsMap rule.trigger
          rule.stringArgument k
        actionLocations := s.actionLocations ++ [placeholder] } := by
  have hold : ∀ {j}, j < k → (s.actionLocations ++ [placeholder])[j]? = s.actionLocations[j]? := by
    intro j hj
    exact getElem?_append_left (by rw [h.length_eq]; exact hj)
  have hawaitsLast : ∀ {rule'}, rules[k]? = some rule' → Awaits rules segment k rule' := by
    intro rule' hrule'
    cases hrule.symm.trans hrule'
    exact ⟨hdefer, hseg⟩
  have hearlier : ∀ {j rule'}, j < k + 1 →
      rules[j]? = some rule' → ¬ Awaits rules segment j rule' → j < k := by
    intro j rule' hj hrule' hnot
    rcases Nat.lt_succ_iff_lt_or_eq.mp hj with hj | rfl
    · exact hj
    · exact absurd (hawaitsLast hrule') hnot
  have hsame : clients rules (k + 1) rule.trigger segment =
      clients rules k rule.trigger segment ++ [k] := by
    have hclient : isClient rules rule.trigger segment k :=
      isClient_iff.mpr ⟨rule, hrule, hdefer, rfl, hseg⟩
    rw [clients_succ, hclient, if_pos rfl]
  have hoth : ∀ {trigger}, trigger ≠ rule.trigger →
      clients rules (k + 1) trigger segment = clients rules k trigger segment := by
    intro trigger hne
    have hnot : isClient rules trigger segment k = false := by
      simp [isClient, hrule, Ne.symm hne]
    rw [clients_succ, hnot]
    simp
  refine ⟨?_, ?_, ?_, h.map_reads, ?_, ?_, ?_, ?_, ?_⟩
  · rw [length_append, h.length_eq]
    rfl
  · intro j rule' hj hrule' hnot
    have hjk := hearlier hj hrule' hnot
    obtain ⟨l, hl, hlt, hread⟩ := h.located hjk hrule' hnot
    exact ⟨l, (hold hjk).trans hl, hlt, hread⟩
  · intro i j l m ri rj hij hj hri hrj hkind hwi hwj hl hm
    have hjk := hearlier hj hrj hwj
    rw [hold (hij.trans hjk)] at hl
    rw [hold hjk] at hm
    exact h.ordered hij hjk hri hrj hkind hwi hwj hl hm
  · intro type entry i l ri hent hi hri hkind hwi hl
    have hik := hearlier hi hri hwi
    rw [hold hik] at hl
    exact h.map_above hent hik hri hkind hwi hl
  · exact fun hne => absurd hignored hne
  · intro entry hent
    rcases mem_addPending h.pending_keys hent with
      ⟨hne, hmem⟩ | ⟨heq, ⟨old, hmem, hent⟩ | ⟨hnone, hent⟩⟩
    · rw [hoth hne]
      exact h.pending hmem
    · obtain ⟨hclients, hsels⟩ := h.pending hmem
      simp only at hclients hsels
      rw [heq, hent, hsame, ← hclients]
      refine ⟨rfl, ?_⟩
      simp [selectorsAt, hsels, hrule]
    · have hnil : clients rules k rule.trigger segment = [] := by
        rw [eq_nil_iff_forall_not_mem]
        intro j hj
        obtain ⟨hjk, rule', hrule', hdefer', htrigger, hseg'⟩ := mem_clients.mp hj
        exact hnone (htrigger ▸ h.pending_all hjk hrule' ⟨hdefer', hseg'⟩)
      rw [heq, hent, hsame, hnil]
      refine ⟨rfl, ?_⟩
      simp [selectorsAt, hrule]
  · rw [addPending_keys]
    split_ifs with hmem
    · exact h.pending_keys
    · rw [← concat_eq_append]
      exact h.pending_keys.concat hmem
  · intro j rule' hj hrule' hawaits
    rw [addPending_keys]
    rcases Nat.lt_succ_iff_lt_or_eq.mp hj with hj | rfl
    · have hmem := h.pending_all hj hrule' hawaits
      split_ifs
      · exact hmem
      · exact mem_append_left _ hmem
    · cases hrule.symm.trans hrule'
      split_ifs with hmem
      · exact hmem
      · exact mem_append_right _ (mem_singleton_self _)

end

theorem readsBack_fresh (hdefer : rule.deferred = false)
    (hinit : actions ++ serializeAction rule.actionType rule.stringArgument <+: final)
    (hsize : final.length < 2 ^ 32) :
    ReadsBack final actions.length (wholeDelivery rules k rule) := by
  obtain ⟨after, rfl⟩ := hinit
  simpa [ReadsBack, wholeDelivery, delivered, hdefer] using
    deserialize_serializeAction actions after rule hsize

/-- Every rule finds its place, whatever its action and trigger. -/
theorem placed (h : Invariant rules final k segment s) (hrule : rules[k]? = some rule)
    (hseg : segmentAt rules (k + 1) = segment)
    (hoth : ∀ type, rule.ignores ≠ decide (type = .ignorePreviousRules) → s.actionsMap type = [])
    (hcss : rule.ignores → s.cssDisplayNoneActionsMap = [])
    (hinit : (placeRule s rule).actions <+: final) (hsize : final.length < 2 ^ 32) :
    Invariant rules final (k + 1) segment (placeRule s rule) := by
  have hkind : ∀ {type entry}, entry ∈ s.actionsMap type →
      rule.ignores = decide (type = .ignorePreviousRules) := by
    intro type entry hent
    by_contra hne
    rw [hoth type hne] at hent
    cases hent
  have hbelow : ∀ {i l ri}, i < k → rules[i]? = some ri →
      ri.ignores ≠ rule.ignores → ¬ Awaits rules segment i ri →
      s.actionLocations[i]? = some l → l < s.actions.length := by
    intro i l ri hi hri _ hwi hl
    obtain ⟨l', hl', hlt, -⟩ := h.located hi hri hwi
    cases hl'.symm.trans hl
    exact hlt
  unfold placeRule at hinit ⊢
  split_ifs at hinit ⊢ with hdomains hsel
  · have hdefer : rule.deferred = false := by
      simp [ContentExtensionRule.deferred, hdomains]
    have hpos := length_serializeAction_pos rule.actionType rule.stringArgument
    exact h.place hrule hdefer hcss (fun he => ⟨hkind he, .inl he⟩) rfl rfl (by simp)
      (by simpa using hpos) (readsBack_fresh hdefer hinit hsize) hbelow
  · have hdefer : rule.deferred := by
      simp only [ne_eq, not_not] at hdomains
      simp [ContentExtensionRule.deferred, hsel, hdomains]
    have hignored := hoth .ignorePreviousRules (by simp [deferred_not_ignores hdefer])
    rw [h.length_eq]
    exact h.defer hrule hdefer hseg hignored _
  · have hdefer : rule.deferred = false := by
      simp [ContentExtensionRule.deferred, hsel]
    have hplain : wholeDelivery rules k rule = (rule.actionType, []) := by
      simp [wholeDelivery, delivered, hdefer, hsel]
    cases hget : (s.actionsMap rule.actionType).lookup rule.trigger.flags with
    | some m =>
      obtain ⟨front, back, heq, -⟩ := lookup_eq_some_iff.mp hget
      have hent : (rule.trigger.flags, m) ∈ s.actionsMap rule.actionType := by
        rw [heq]
        exact mem_append_right _ mem_cons_self
      obtain ⟨hlt, hread⟩ := h.map_reads hent
      exact h.place hrule hdefer hcss (fun he => ⟨hkind he, .inl he⟩) rfl rfl le_rfl
        hlt (hplain ▸ hread) (h.map_above hent)
    | none =>
      simp only [hget] at hinit
      have hbytes : serializeAction rule.actionType rule.stringArgument =
          [rule.actionType.toByte] := by
        simp [serializeAction, hsel]
      have hread : ReadsBack final s.actions.length (wholeDelivery rules k rule) :=
        readsBack_fresh hdefer (by rwa [hbytes]) hsize
      refine h.place hrule hdefer hcss ?_ rfl rfl (by simp) (by simp) hread hbelow
      intro type entry hent
      simp only at hent
      by_cases htype : type = rule.actionType
      · subst htype
        rw [Function.update_self, mem_cons] at hent
        refine ⟨rfl, ?_⟩
        rcases hent with rfl | hent
        · exact .inr ⟨rfl, hplain ▸ hread⟩
        · exact .inl hent
      · rw [Function.update_of_ne htype] at hent
        exact ⟨hkind hent, .inl hent⟩

/-- One rule of the list keeps the invariant. -/
theorem step (h : Invariant rules final k (segmentAt rules k) s) (hrule : rules[k]? = some rule)
    (hinit : (serializeRule iteration s rule).actions <+: final)
    (hsize : final.length < 2 ^ 32) :
    Invariant rules final (k + 1) (segmentAt rules (k + 1))
      (serializeRule iteration s rule) := by
  have hstart := (prefix_placeRule (startRule iteration s rule) rule).trans hinit
  have hk : k < rules.length := (List.getElem?_eq_some_iff.mp hrule).1
  have hseg := segmentAt_succ hrule
  by_cases hign : rule.actionType = .ignorePreviousRules
  · have htrue : rule.ignores = true := by simp [ContentExtensionRule.ignores, hign]
    rw [if_pos htrue] at hseg
    simp only [startRule, if_pos hign] at hstart
    have hended : ∀ j rule, k ≤ j → rules[j]? = some rule →
        segmentAt rules (j + 1) ≠ segmentAt rules k := by
      intro j rule' hkj _ heq
      have hmono : segmentAt rules (k + 1) ≤ segmentAt rules (j + 1) :=
        segmentAt_mono (by omega)
      omega
    have hresol := h.resolve iteration hstart hsize hk.le le_rfl hended
    rw [← hseg] at hresol
    have hstarted : Invariant rules final k (segmentAt rules (k + 1))
        (startRule iteration s rule) := by
      rw [startRule, if_pos hign]
      apply hresol.forget
      intro type
      split_ifs
      · exact .inl rfl
      · exact .inr rfl
    refine hstarted.placed hrule rfl ?_ ?_ hinit hsize
    · intro type hne
      simp only [startRule, if_pos hign]
      rw [if_neg (by simpa [htrue] using hne)]
    · intro _
      simp [startRule, hign, resolvePendingDisplayNoneActions]
  · have hfalse : rule.ignores = false := by simp [ContentExtensionRule.ignores, hign]
    have hsame : segmentAt rules (k + 1) = segmentAt rules k := by
      simpa [hfalse] using hseg
    have hstarted : Invariant rules final k (segmentAt rules (k + 1))
        (startRule iteration s rule) := by
      rw [hsame, startRule, if_neg hign]
      apply h.forget
      intro type
      by_cases htype : type = .ignorePreviousRules
      · exact .inr (htype ▸ Function.update_self ..)
      · exact .inl (Function.update_of_ne htype ..)
    refine hstarted.placed hrule rfl ?_ ?_ hinit hsize
    · intro type hne
      have htype : type = .ignorePreviousRules := by simpa [hfalse] using hne
      simp only [startRule, if_neg hign, htype]
      exact Function.update_self ..
    · intro htrue
      rw [hfalse] at htrue
      cases htrue

theorem run (rest : List ContentExtensionRule)
    (h : Invariant rules final k (segmentAt rules k) s) (hrest : rules.drop k = rest)
    (hinit : (rest.foldl (serializeRule iteration) s).actions <+: final)
    (hsize : final.length < 2 ^ 32) :
    Invariant rules final (k + rest.length) (segmentAt rules (k + rest.length))
      (rest.foldl (serializeRule iteration) s) := by
  induction rest generalizing k s with
  | nil => exact h
  | cons rule rest ih =>
    have hrule : rules[k]? = some rule := by
      rw [← add_zero k, ← getElem?_drop, hrest, getElem?_cons_zero]
    have hdrop : rules.drop (k + 1) = rest := by
      rw [← drop_drop, hrest, drop_one, tail_cons]
    have hone := h.step iteration hrule
      ((prefix_foldl_serializeRule iteration rest _).trans hinit) hsize
    have hall := ih hone hdrop hinit
    rw [length_cons, show k + (rest.length + 1) = k + 1 + rest.length by omega]
    exact hall

end Invariant

/-- After the last rule nothing is pending, and every location reads back. -/
theorem serializeActions_invariant {rules : List ContentExtensionRule}
    (h : serializeActions iteration rules = some (actionLocations, actions)) :
    ∃ s, s.actionLocations = actionLocations ∧
      Invariant rules actions rules.length (segmentAt rules rules.length + 1) s := by
  unfold serializeActions at h
  simp only at h
  split_ifs at h with hsize
  obtain ⟨hlocs, hacts⟩ := Prod.mk.inj (some_inj.mp h)
  rw [hacts] at hsize
  have hresol : (resolvePendingDisplayNoneActions iteration
      (rules.foldl (serializeRule iteration) emptySerializer)).actions <+: actions :=
    hacts ▸ prefix_refl _
  have hfold := (prefix_foldl_resolveEntry _
    ((rules.foldl (serializeRule iteration) emptySerializer).actions, _)).trans hresol
  have hrun := (Invariant.init rules actions).run iteration rules rfl hfold hsize
  rw [zero_add] at hrun
  refine ⟨_, hlocs, hrun.resolve iteration hresol hsize le_rfl le_rfl ?_⟩
  intro j rule hj hrule
  rw [getElem?_eq_none hj] at hrule
  cases hrule

section Walk

/-- The walk keeps the actions in front of the first ignore-previous-rules action. -/
theorem addActions_eq {read : ℕ → Action} {locations : List ℕ}
    (hread : ∀ l ∈ locations, deserialize actions l = some (read l))
    (finalActions : List Action) :
    addActions actions locations finalActions = some (finalActions ++ (locations.takeWhile
          fun l => decide ((read l).type ≠ .ignorePreviousRules)).map read,
        locations.any fun l => decide ((read l).type = .ignorePreviousRules)) := by
  induction locations generalizing finalActions with
  | nil => simp [addActions]
  | cons location rest ih =>
    have hfst := hread location mem_cons_self
    have hrest := ih fun l hl => hread l (mem_cons_of_mem _ hl)
    by_cases htype : (read location).type = .ignorePreviousRules
    · simp [addActions, hfst, htype]
    · simp [addActions, hfst, htype, hrest]

/-- In a descending list the elements in front of the first failure are those above all
failures. -/
theorem mem_takeWhile_of_descending {p : ℕ → Bool} {locations : List ℕ}
    (hsort : locations.Pairwise (· ≥ ·)) {x : ℕ} :
    x ∈ locations.takeWhile p ↔ x ∈ locations ∧ ∀ y ∈ locations, x ≤ y → p y := by
  induction locations with
  | nil => simp
  | cons first rest ih =>
    obtain ⟨hfst, hrest⟩ := pairwise_cons.mp hsort
    by_cases hp : p first
    · rw [takeWhile_cons_of_pos hp, mem_cons, mem_cons, ih hrest, forall_mem_cons]
      constructor
      · rintro (rfl | ⟨hmem, hall⟩)
        · refine ⟨.inl rfl, fun _ => hp, fun y hy hxy => ?_⟩
          rwa [le_antisymm (hfst y hy) hxy]
        · exact ⟨.inr hmem, fun _ => hp, hall⟩
      · rintro ⟨rfl | hmem, -, hall⟩
        · exact .inl rfl
        · exact .inr ⟨hmem, hall⟩
    · rw [takeWhile_cons_of_neg hp]
      refine iff_of_false not_mem_nil ?_
      rintro ⟨hmem, hall⟩
      have hle : ∀ y ∈ first :: rest, y ≤ first := forall_mem_cons.mpr ⟨le_rfl, hfst⟩
      exact hp (hall first mem_cons_self (hle x hmem))

theorem sorted_reverse_mergeSort (locations : List ℕ) :
    (locations.mergeSort (· ≤ ·)).reverse.Pairwise (· ≥ ·) := by
  rw [pairwise_reverse]
  have hsort : (locations.mergeSort (· ≤ ·)).Pairwise fun a b => decide (a ≤ b) :=
    pairwise_mergeSort (by simpa using fun a b c => le_trans)
      (by simpa using le_total) locations
  simpa using hsort

end Walk

section Delivery

variable (ruleList : List ContentExtensionRule) (matching : ℕ → Bool)

def ClosedUnderTriggers : Prop :=
  ∀ {i j : ℕ} {ri rj : ContentExtensionRule}, ruleList[i]? = some ri → ruleList[j]? = some rj →
    ri.trigger = rj.trigger → matching i = true → matching j = true

def AfterLastIgnore (j : ℕ) : Prop :=
  ∀ {i : ℕ} {ri : ContentExtensionRule}, ruleList[i]? = some ri → matching i = true →
    ri.ignores = true → i < j

/-- The action of a matching rule behind the last matching ignore-previous-rules rule; the
selectors of the matching rules of its trigger and segment come joined. -/
def Expected (action : ActionType × List UInt16) : Prop :=
  ∃ j rule, ruleList[j]? = some rule ∧ matching j = true ∧ rule.ignores = false ∧
    AfterLastIgnore ruleList matching j ∧
    action = delivered ruleList ((clients ruleList ruleList.length rule.trigger
      (segmentAt ruleList (j + 1))).filter matching) rule

variable {ruleList} {matching}

theorem delivered_matching (hclosed : ClosedUnderTriggers ruleList matching) {j : ℕ}
    {rule : ContentExtensionRule} (hrule : ruleList[j]? = some rule)
    (hmatching : matching j) :
    delivered ruleList ((clients ruleList ruleList.length rule.trigger
      (segmentAt ruleList (j + 1))).filter matching) rule = wholeDelivery ruleList j rule := by
  rw [wholeDelivery, filter_eq_self.mpr]
  intro i hi
  obtain ⟨-, ri, hri, -, htrigger, -⟩ := mem_clients.mp hi
  exact hclosed hrule hri htrigger.symm hmatching

structure Reads (ruleList : List ContentExtensionRule) (actionLocations : List ℕ)
    (actions : List UInt8) (read : ℕ → Action) : Prop where
  length_eq : actionLocations.length = ruleList.length
  location : ∀ {j : ℕ} {rule : ContentExtensionRule}, ruleList[j]? = some rule →
    ∃ l, actionLocations[j]? = some l
  deserialized : ∀ {j l : ℕ} {rule : ContentExtensionRule}, ruleList[j]? = some rule →
    actionLocations[j]? = some l → deserialize actions l = some (read l)
  read_eq : ∀ {j l : ℕ} {rule : ContentExtensionRule}, ruleList[j]? = some rule →
    actionLocations[j]? = some l →
    read l = ⟨(wholeDelivery ruleList j rule).1, (wholeDelivery ruleList j rule).2, l⟩
  ordered : ∀ {i j l m : ℕ} {ri rj : ContentExtensionRule}, i < j → ruleList[i]? = some ri →
    ruleList[j]? = some rj → ri.ignores ≠ rj.ignores → actionLocations[i]? = some l →
    actionLocations[j]? = some m → l < m

theorem serializeActions_reads
    (hser : serializeActions iteration ruleList = some (actionLocations, actions)) :
    Reads ruleList actionLocations actions
      fun l => (deserialize actions l).getD ⟨.invalidAction, [], l⟩ := by
  obtain ⟨s, rfl, hinv⟩ := serializeActions_invariant iteration hser
  have hlt : ∀ {j rule}, ruleList[j]? = some rule →
      j < ruleList.length := fun hrule => (List.getElem?_eq_some_iff.mp hrule).1
  have hnot : ∀ {j rule}, ruleList[j]? = some rule →
      ¬ Awaits ruleList (segmentAt ruleList ruleList.length + 1) j rule := by
    intro j rule hrule hawaits
    have hmono : segmentAt ruleList (j + 1) ≤ segmentAt ruleList ruleList.length :=
      segmentAt_mono (hlt hrule)
    have hseg := hawaits.2
    omega
  have hread : ∀ {j l rule}, ruleList[j]? = some rule →
      s.actionLocations[j]? = some l → ReadsBack actions l (wholeDelivery ruleList j rule) := by
    intro j l rule hrule hl
    obtain ⟨l', hl', -, hback⟩ := hinv.located (hlt hrule) hrule (hnot hrule)
    cases hl'.symm.trans hl
    exact hback
  refine ⟨hinv.length_eq, ?_, ?_, ?_, ?_⟩
  · intro j rule hrule
    obtain ⟨l, hl, -⟩ := hinv.located (hlt hrule) hrule (hnot hrule)
    exact ⟨l, hl⟩
  · intro j l rule hrule hl
    have hback : deserialize actions l = _ := hread hrule hl
    rw [hback, getD_some]
  · intro j l rule hrule hl
    have hback : deserialize actions l = _ := hread hrule hl
    rw [hback, getD_some]
  · intro i j l m ri rj hij hri hrj hkind hl hm
    exact hinv.ordered hij (hlt hrj) hri hrj hkind (hnot hri) (hnot hrj) hl hm

namespace Reads

variable {actionLocations : List ℕ} {actions : List UInt8} {read : ℕ → Action}
  {walk : List ℕ}

section

variable (h : Reads ruleList actionLocations actions read)

include h

theorem ignores_iff {j l : ℕ} {rule : ContentExtensionRule} (hrule : ruleList[j]? = some rule)
    (hl : actionLocations[j]? = some l) :
    (read l).type = .ignorePreviousRules ↔ rule.ignores := by
  rw [h.read_eq hrule hl]
  simp [wholeDelivery, delivered, ContentExtensionRule.ignores]

section

variable (hwalk : ∀ l, l ∈ walk ↔ ∃ j, matching j = true ∧ actionLocations[j]? = some l)

include hwalk

/-- A matched location belongs to a matching rule. -/
theorem exists_rule {l : ℕ} (hl : l ∈ walk) : ∃ j rule, ruleList[j]? = some rule ∧ matching j ∧
      actionLocations[j]? = some l := by
  obtain ⟨j, hj, hloc⟩ := (hwalk l).mp hl
  have hlt : j < ruleList.length :=
    h.length_eq ▸ (List.getElem?_eq_some_iff.mp hloc).1
  exact ⟨j, ruleList[j], getElem?_eq_getElem hlt, hj, hloc⟩

/-- A location above all matched ignoring ones is one of a rule behind them all. -/
theorem mem_front_iff (hsort : walk.Pairwise (· ≥ ·)) (l : ℕ) :
    l ∈ walk.takeWhile (fun l => decide ((read l).type ≠ .ignorePreviousRules)) ↔
      ∃ j rule, ruleList[j]? = some rule ∧ matching j ∧ rule.ignores = false ∧
        AfterLastIgnore ruleList matching j ∧ actionLocations[j]? = some l := by
  rw [mem_takeWhile_of_descending hsort]
  constructor
  · rintro ⟨hl, habove⟩
    obtain ⟨j, rule, hrule, hj, hloc⟩ := h.exists_rule hwalk hl
    have hnot : ∀ m ∈ walk, l ≤ m → (read m).type ≠ .ignorePreviousRules := by
      intro m hm hle
      simpa using habove m hm hle
    have hoth : rule.ignores = false := by
      rw [← Bool.not_eq_true, ← h.ignores_iff hrule hloc]
      exact hnot l hl le_rfl
    refine ⟨j, rule, hrule, hj, hoth, ?_, hloc⟩
    intro i ri hri hi hign
    obtain ⟨m, hm⟩ := h.location hri
    by_contra hle
    have hne : i ≠ j := by
      rintro rfl
      cases hrule.symm.trans hri
      rw [hoth] at hign
      cases hign
    have hlt := h.ordered (show j < i by omega) hrule hri (by rw [hoth, hign]; decide)
      hloc hm
    exact hnot m ((hwalk m).mpr ⟨i, hi, hm⟩) hlt.le ((h.ignores_iff hri hm).mpr hign)
  · rintro ⟨j, rule, hrule, hj, hoth, hafter, hloc⟩
    refine ⟨(hwalk l).mpr ⟨j, hj, hloc⟩, ?_⟩
    intro m hm hle
    obtain ⟨i, ri, hri, hi, hloc'⟩ := h.exists_rule hwalk hm
    rw [decide_eq_true_eq, ne_eq, h.ignores_iff hri hloc']
    intro hign
    have hlt := h.ordered (hafter hri hi hign) hri hrule (by rw [hoth, hign]; decide)
      hloc' hloc
    omega

/-- The flag of the walk says whether an ignoring rule matches. -/
theorem any_ignores_iff :
    (walk.any fun l => decide ((read l).type = .ignorePreviousRules)) = false ↔
      ∀ j rule, ruleList[j]? = some rule → matching j → rule.ignores = false := by
  rw [any_eq_false]
  constructor
  · intro hnone j rule hrule hj
    obtain ⟨l, hl⟩ := h.location hrule
    have hnot := hnone l ((hwalk l).mpr ⟨j, hj, hl⟩)
    rw [decide_eq_true_eq, h.ignores_iff hrule hl] at hnot
    exact Bool.not_eq_true _ ▸ hnot
  · intro hnone l hl
    obtain ⟨j, rule, hrule, hj, hloc⟩ := h.exists_rule hwalk hl
    rw [decide_eq_true_eq, h.ignores_iff hrule hloc, hnone j rule hrule hj]
    decide

end

theorem mem_delivered_iff (hclosed : ClosedUnderTriggers ruleList matching)
    (hwalk : ∀ l, l ∈ walk ↔ ∃ j, matching j ∧ actionLocations[j]? = some l)
    (hsort : walk.Pairwise (· ≥ ·)) (type : ActionType) (string : List UInt16) :
    (∃ actionID, ⟨type, string, actionID⟩ ∈
      (walk.takeWhile fun l => decide ((read l).type ≠ .ignorePreviousRules)).map read) ↔
      Expected ruleList matching (type, string) := by
  constructor
  · rintro ⟨actionID, hmem⟩
    obtain ⟨l, hl, heq⟩ := mem_map.mp hmem
    obtain ⟨j, rule, hrule, hj, hoth, hafter, hloc⟩ :=
      (h.mem_front_iff hwalk hsort l).mp hl
    refine ⟨j, rule, hrule, hj, hoth, hafter, ?_⟩
    rw [delivered_matching hclosed hrule hj]
    rw [h.read_eq hrule hloc, Action.mk.injEq] at heq
    exact Prod.ext heq.1.symm heq.2.1.symm
  · rintro ⟨j, rule, hrule, hj, hoth, hafter, heq⟩
    rw [delivered_matching hclosed hrule hj] at heq
    obtain ⟨l, hl⟩ := h.location hrule
    refine ⟨l, mem_map.mpr ⟨l, ?_, ?_⟩⟩
    · exact (h.mem_front_iff hwalk hsort l).mpr ⟨j, rule, hrule, hj, hoth, hafter, hl⟩
    · rw [h.read_eq hrule hl, ← heq]

end

end Reads

/-- The actions a load gets from the serialized form are those of the matching rules behind
the last matching ignore-previous-rules rule; without such a rule the extension's style sheet
is added. -/
theorem actionsForResourceLoad_eq_expected (hclosed : ClosedUnderTriggers ruleList matching)
    {actionLocations : List ℕ} {actions : List UInt8}
    (hserialized : serializeActions iteration ruleList = some (actionLocations, actions))
    {matched : List ℕ}
    (hmatched : ∀ l, l ∈ matched ↔ ∃ j, matching j = true ∧ actionLocations[j]? = some l)
    (identifier : List UInt16) :
    ∃ finalActions, actionsForResourceLoad identifier actions matched = some finalActions ∧
      ∀ type string, (∃ actionID, ⟨type, string, actionID⟩ ∈ finalActions) ↔
        Expected ruleList matching (type, string) ∨
        (∀ j rule, ruleList[j]? = some rule → matching j = true → rule.ignores = false) ∧
          type = .cssDisplayNoneStyleSheet ∧ string = identifier := by
  have hreads := serializeActions_reads iteration hserialized
  have hsort := sorted_reverse_mergeSort matched
  have hwalk : ∀ l, l ∈ (matched.mergeSort (· ≤ ·)).reverse ↔
      ∃ j, matching j = true ∧ actionLocations[j]? = some l := by
    intro l
    rw [mem_reverse, mem_mergeSort, hmatched]
  have hadd := addActions_eq (fun l hl => by
    obtain ⟨j, rule, hrule, -, hloc⟩ := hreads.exists_rule hwalk hl
    exact hreads.deserialized hrule hloc) []
  have hany := hreads.any_ignores_iff hwalk
  have hfront := hreads.mem_delivered_iff hclosed hwalk hsort
  rw [actionsForResourceLoad, hadd, nil_append]
  cases hsaw : (matched.mergeSort (· ≤ ·)).reverse.any _ with
  | true =>
    refine ⟨_, rfl, fun type string => ?_⟩
    rw [hfront type string]
    have hseen : ¬ ∀ j rule, ruleList[j]? = some rule → matching j = true →
        rule.ignores = false := by
      rw [← hany, hsaw]
      decide
    tauto
  | false =>
    refine ⟨_, rfl, fun type string => ?_⟩
    have hnone := hany.mp hsaw
    rw [← hfront type string]
    simp only [mem_append, mem_singleton, Action.mk.injEq, exists_or]
    constructor
    · rintro (hmem | ⟨_, htype, hstring, -⟩)
      · exact .inl hmem
      · exact .inr ⟨hnone, htype, hstring⟩
    · rintro (hmem | ⟨-, htype, hstring⟩)
      · exact .inl hmem
      · exact .inr ⟨_, htype, hstring, rfl⟩

end Delivery

def insertionOrder : IterationOrder PendingDisplayNoneActions := .insertion

def plainRule (urlFilter : UInt16) (type : ActionType) (selector : List UInt8)
    (parsed : type ≠ .cssDisplayNoneStyleSheet ∧ type ≠ .invalidAction) :
    ContentExtensionRule where
  trigger := ⟨[urlFilter], false, 0, [], .none⟩
  actionType := type
  stringArgument := ⟨true, selector.map UInt8.toUInt16, by
    intro _ c hc
    obtain ⟨byte, -, rfl⟩ := mem_map.mp hc
    simpa using byte.toNat_lt⟩
  parsed := parsed

def segmentedRules : List ContentExtensionRule :=
  [plainRule 1 .blockLoad [] (by decide), plainRule 2 .cssDisplayNoneSelector [97] (by decide),
    plainRule 2 .cssDisplayNoneSelector [98] (by decide),
    plainRule 3 .ignorePreviousRules [] (by decide),
    plainRule 2 .cssDisplayNoneSelector [99] (by decide),
    plainRule 2 .cssDisplayNoneSelector [100] (by decide)]

def segmentedActions : List UInt8 :=
  [0, 2, 3, 0, 0, 0, 0, 97, 44, 98, 4, 2, 3, 0, 0, 0, 0, 99, 44, 100]

theorem actionsForResourceLoad_eq_expected_segmented :
    serializeActions insertionOrder segmentedRules =
      some ([0, 1, 1, 10, 11, 11], segmentedActions) ∧
    ∃ finalActions,
      actionsForResourceLoad [] segmentedActions [0, 1, 1, 10, 11, 11] = some finalActions ∧
      ∀ type string, (∃ actionID, ⟨type, string, actionID⟩ ∈ finalActions) ↔
        Expected segmentedRules (fun _ => true) (type, string) ∨
        (∀ (j : ℕ) (rule : ContentExtensionRule), segmentedRules[j]? = some rule → true = true →
          rule.ignores = false) ∧ type = .cssDisplayNoneStyleSheet ∧ string = [] := by
  have hser : serializeActions insertionOrder segmentedRules =
      some ([0, 1, 1, 10, 11, 11], segmentedActions) := by decide +kernel
  refine ⟨hser, ?_⟩
  refine actionsForResourceLoad_eq_expected insertionOrder ?_ hser ?_ []
  · intro i j ri rj _ _ _ _
    rfl
  · intro l
    simp [mem_iff_getElem?]

end WebKit.ContentExtensions
