import WebKit.ContentExtensions.NFA
import WebKit.Foundation.GraphInsertion

/-!
The terms of a URL pattern, quantified sets of characters and quantified groups, and the graphs that
are generated for them. While an automaton is constructed, each of its nodes has a builder, and a new
node gets the next number.
-/

namespace WebKit.ContentExtensions

open Exploration GraphInsertion RangeMaps
open scoped Computability

inductive AtomQuantifier where
  | one
  | zeroOrOne
  | zeroOrMore
  | oneOrMore
deriving DecidableEq

structure CharacterSet where
  inverted : Bool
  characters : UInt64 × UInt64
deriving DecidableEq

namespace CharacterSet

variable (set : CharacterSet)

def word (index : ℕ) : UInt64 :=
  if index = 0 then set.characters.1 else set.characters.2

def get (character : ℕ) : Bool :=
  set.word (character / 64) &&& ((1 : UInt64) <<< UInt64.ofNat (character % 64)) != 0

/-- The characters that the set stands for; NUL ends the input, and is in no inverted set. -/
def Matches (character : ℕ) : Prop :=
  character < 128 ∧
    if set.inverted then character ≠ 0 ∧ set.get character = false else set.get character = true

end CharacterSet

inductive Term where
  | characterSet (set : CharacterSet) (quantifier : AtomQuantifier)
  | group (terms : List Term) (quantifier : AtomQuantifier)

abbrev NFABuilders := List ImmutableNFANodeBuilder

namespace NFABuilders

def addEpsilonTransition (nfa : NFABuilders) (source destination : ℕ) : NFABuilders :=
  nfa.modify source (·.addEpsilonTransition destination)

variable (p : ℕ → Bool)

def skip (i : ℕ) : ℕ :=
  if h : i < 128 ∧ p i = true then skip (i + 1) else i
termination_by 128 - i

theorem le_skip (i : ℕ) : i ≤ skip p i := by
  fun_induction skip with
  | case1 i h ih => omega
  | case2 i h => exact Nat.le_refl i

theorem skip_le {i : ℕ} (hi : i ≤ 128) : skip p i ≤ 128 := by
  fun_induction skip with
  | case1 i h ih => exact ih (by omega)
  | case2 i h => exact hi

theorem of_lt_skip {p : ℕ → Bool} {i c : ℕ} (hi : i ≤ c) (hc : c < skip p i) : p c := by
  fun_induction skip with
  | case1 i h ih =>
    by_cases heq : i = c
    · exact heq ▸ h.2
    · exact ih (by omega) hc
  | case2 i h => omega

theorem not_skip {p : ℕ → Bool} {i : ℕ} (h : skip p i < 128) : p (skip p i) = false := by
  fun_induction skip with
  | case1 i _ ih => exact ih h
  | case2 i hstop =>
    by_contra hp
    exact hstop ⟨h, by simpa using hp⟩

def addRuns (destination : ℕ) (builder : ImmutableNFANodeBuilder) (i : ℕ) :
    ImmutableNFANodeBuilder :=
  let start := skip (fun c => !p c) i
  if h : start < 128 then
    let stop := skip p (start + 1)
    addRuns destination (builder.addTransition start (stop - 1) destination) stop
  else builder
termination_by 128 - i
decreasing_by
  have hstart := le_skip (fun c => !p c) i
  have hstop := le_skip p (skip (fun c => !p c) i + 1)
  omega

def addCharacterSet (set : CharacterSet) (destination : ℕ) (builder : ImmutableNFANodeBuilder) :
    ImmutableNFANodeBuilder :=
  if set.inverted then addRuns (fun c => !set.get c) destination builder 1
  else addRuns set.get destination builder 0

end NFABuilders

abbrev Subgraph := NFABuilders → ℕ → ℕ → NFABuilders

def Subgraph.repeated (atom : Subgraph) : Subgraph := fun nfa source destination =>
  let repeatStart := nfa.length
  let nfa := NFABuilders.addEpsilonTransition (nfa ++ [.empty]) source repeatStart
  let repeatEnd := nfa.length
  let nfa := atom (nfa ++ [.empty]) repeatStart repeatEnd
  let nfa := nfa.addEpsilonTransition repeatEnd repeatStart
  nfa.addEpsilonTransition repeatEnd destination

def Subgraph.quantify (atom : Subgraph) (quantifier : AtomQuantifier) : Subgraph :=
  fun nfa source destination =>
    match quantifier with
    | .one => atom nfa source destination
    | .zeroOrOne => (atom nfa source destination).addEpsilonTransition source destination
    | .zeroOrMore => (atom.repeated nfa source destination).addEpsilonTransition source destination
    | .oneOrMore => atom.repeated nfa source destination

def Subgraph.toNewEnd (graph : Subgraph) (nfa : NFABuilders) (source : ℕ) (finalActions : List ℕ) :
    NFABuilders × ℕ :=
  let newEnd := nfa.length
  ((graph (nfa ++ [.empty]) source newEnd).modify newEnd (·.setActions finalActions), newEnd)

mutual

def Term.generateGraph : Term → Subgraph
  | .characterSet set quantifier =>
    Subgraph.quantify (fun nfa source destination =>
      nfa.modify source (NFABuilders.addCharacterSet set destination)) quantifier
  | .group terms quantifier => Subgraph.quantify (Term.generateGroup terms) quantifier

def Term.generateGroup : List Term → Subgraph
  | [], nfa, source, destination => nfa.addEpsilonTransition source destination
  | term :: terms, nfa, source, destination =>
    if terms.isEmpty then term.generateGraph nfa source destination
    else
      let (nfa, lastTarget) := Subgraph.toNewEnd term.generateGraph nfa source []
      Term.generateGroup terms nfa lastTarget destination

end

def CharacterSet.language (set : CharacterSet) : Language ℕ := {word | ∃ c, set.Matches c ∧ word = [c]}

def AtomQuantifier.language (quantifier : AtomQuantifier) (atom : Language ℕ) : Language ℕ :=
  match quantifier with
  | .one => atom
  | .zeroOrOne => atom + 1
  | .zeroOrMore => atom∗
  | .oneOrMore => atom * atom∗

mutual

def Term.language : Term → Language ℕ
  | .characterSet set quantifier => quantifier.language set.language
  | .group terms quantifier => quantifier.language (Term.groupLanguage terms)

def Term.groupLanguage : List Term → Language ℕ
  | [] => 1
  | term :: terms => term.language * Term.groupLanguage terms

end

def ImmutableNFANodeBuilder.Edge (builder : ImmutableNFANodeBuilder) : Option ℕ → ℕ → Prop
  | some c, target => builder.Leads c target
  | none, target => target ∈ builder.epsilonTransitionTargets

namespace NFABuilders

def edges (nfa : NFABuilders) : Edges ℕ ℕ := fun p x q =>
  ∃ builder, nfa[p]? = some builder ∧ builder.Edge x q

variable {nfa nfa₁ nfa₂ : NFABuilders} {source dest p q : ℕ} {x : Option ℕ}
  {language language₁ language₂ : Language ℕ}

theorem lt_of_edges (h : nfa.edges p x q) : p < nfa.length := by
  obtain ⟨builder, hbuild, -⟩ := h
  exact (List.getElem?_eq_some_iff.mp hbuild).1

theorem edges_append_empty : edges (nfa ++ [.empty]) p x q ↔ nfa.edges p x q := by
  constructor
  · intro ⟨builder, hbuild, hedge⟩
    by_cases hp : p < nfa.length
    · exact ⟨builder, List.getElem?_append_left hp ▸ hbuild, hedge⟩
    · rw [List.getElem?_append_right (not_lt.mp hp), List.getElem?_singleton] at hbuild
      obtain ⟨-, hempty⟩ := Option.ite_none_right_eq_some.mp hbuild
      rw [← Option.some.inj hempty] at hedge
      cases x with
      | none => cases hedge
      | some c =>
        obtain ⟨targets, htgts, -⟩ := hedge
        have hnil : ImmutableNFANodeBuilder.empty.ranges.toList = [] := rfl
        rw [hnil] at htgts
        exact absurd htgts (Option.not_mem_none targets)
  · intro ⟨builder, hbuild, hedge⟩
    have hp := (List.getElem?_eq_some_iff.mp hbuild).1
    exact ⟨builder, (List.getElem?_append_left hp).trans hbuild, hedge⟩

/-- What a change of one node means for the edges. -/
theorem edges_modify {f : ImmutableNFANodeBuilder → ImmutableNFANodeBuilder} {labels : Set (Option ℕ)}
    (hsrc : source < nfa.length)
    (hf : ∀ builder x q, (f builder).Edge x q ↔ builder.Edge x q ∨ q = dest ∧ x ∈ labels) :
    edges (nfa.modify source f) p x q ↔ nfa.edges p x q ∨ p = source ∧ q = dest ∧ x ∈ labels := by
  unfold edges
  rw [List.getElem?_modify]
  by_cases hp : source = p
  · subst hp
    rw [List.getElem?_eq_getElem hsrc]
    simp [hf]
  · simp [hp, Ne.symm hp]

theorem edges_addEpsilonTransition (hsrc : source < nfa.length) :
    (nfa.addEpsilonTransition source dest).edges p x q ↔
      nfa.edges p x q ∨ p = source ∧ q = dest ∧ x ∈ ({none} : Set (Option ℕ)) := by
  refine edges_modify hsrc fun builder x q => ?_
  cases x with
  | none =>
    rw [ImmutableNFANodeBuilder.Edge, ImmutableNFANodeBuilder.addEpsilonTransition, mem_add]
    simp [ImmutableNFANodeBuilder.Edge]
  | some c => simp [ImmutableNFANodeBuilder.Edge, ImmutableNFANodeBuilder.addEpsilonTransition,
      ImmutableNFANodeBuilder.Leads]

theorem edges_setActions (actions : List ℕ) :
    edges (nfa.modify source (·.setActions actions)) p x q ↔ nfa.edges p x q := by
  unfold edges
  rw [List.getElem?_modify]
  cases nfa[p]? with
  | none => simp
  | some builder =>
    by_cases hp : source = p
    · simp only [hp, if_true, Option.map_eq_map, Option.map_some, Option.some.injEq, exists_eq_left']
      cases x with
      | none => exact Iff.rfl
      | some c => exact Iff.rfl
    · simp [hp]

theorem edge_addTransition {builder : ImmutableNFANodeBuilder} {first last target : ℕ}
    (h : first ≤ last) : (builder.addTransition first last target).Edge x q ↔
      builder.Edge x q ∨ q = target ∧ ∃ c, x = some c ∧ first ≤ c ∧ c ≤ last := by
  cases x with
  | none => simp [ImmutableNFANodeBuilder.Edge, ImmutableNFANodeBuilder.addTransition, h]
  | some c =>
    refine (ImmutableNFANodeBuilder.leads_addTransition h).trans (or_congr_right ?_)
    rw [and_comm]
    simp

/-- The transitions for the runs of characters from `i` on. -/
theorem edge_addRuns (set : ℕ → Bool) (builder : ImmutableNFANodeBuilder) {i : ℕ} (hi : i ≤ 128) :
    (addRuns set dest builder i).Edge x q ↔
      builder.Edge x q ∨ q = dest ∧ ∃ c, x = some c ∧ i ≤ c ∧ c < 128 ∧ set c := by
  fun_induction addRuns set dest builder i with
  | case1 builder i start hstart stop ih =>
    have hle : i ≤ start := le_skip _ i
    have hstop : start + 1 ≤ stop := le_skip _ _
    have hbefore : ∀ c, i ≤ c → c < start → set c = false := by
      intro c hc hlt
      simpa using of_lt_skip hc hlt
    have hfst : set start := by simpa using not_skip hstart
    have hrun : ∀ c, start ≤ c → c < stop → set c := by
      intro c hc hlt
      by_cases heq : c = start
      · exact heq ▸ hfst
      · exact of_lt_skip (by omega : start + 1 ≤ c) hlt
    have hstopLe : stop ≤ 128 := skip_le set hstart
    rw [ih hstopLe, edge_addTransition (by omega), or_assoc, ← and_or_left, ← exists_or]
    refine or_congr_right (and_congr_right fun _ => exists_congr fun c => ?_)
    rw [← and_or_left]
    refine and_congr_right fun _ => ⟨fun h => ?_, fun h => ?_⟩
    · rcases h with h | h
      · exact ⟨by omega, by omega, hrun c h.1 (by omega)⟩
      · exact ⟨by omega, h.2⟩
    · by_cases hc : c < start
      · simp [hbefore c h.1 hc] at h
      · by_cases hlast : c < stop
        · exact Or.inl ⟨by omega, by omega⟩
        · exact Or.inr ⟨by omega, h.2⟩
  | case2 builder i start hstart =>
    have hnone : ∀ c, i ≤ c → c < 128 → set c = false := by
      intro c hc hlt
      have hlt : c < start := by omega
      simpa using of_lt_skip hc hlt
    refine ⟨Or.inl, fun h => h.resolve_right fun hnew => ?_⟩
    obtain ⟨-, c, -, hc, hlt, hset⟩ := hnew
    rw [hnone c hc hlt] at hset
    exact absurd hset nofun

/-- The transitions for a set of characters. -/
theorem edge_addCharacterSet (set : CharacterSet) (builder : ImmutableNFANodeBuilder) :
    (addCharacterSet set dest builder).Edge x q ↔
      builder.Edge x q ∨ q = dest ∧ x ∈ {x | ∃ c, x = some c ∧ set.Matches c} := by
  rw [Set.mem_ofPred_eq]
  unfold addCharacterSet CharacterSet.Matches
  cases set.inverted with
  | false =>
    rw [if_neg nofun, edge_addRuns set.get builder (Nat.zero_le _)]
    simp
  | true =>
    rw [if_pos rfl, edge_addRuns _ builder (by decide)]
    refine or_congr_right (and_congr_right fun _ => exists_congr fun c => and_congr_right fun _ => ?_)
    simp only [Bool.not_eq_true', if_true]
    constructor
    · intro h
      exact ⟨h.2.1, by omega, h.2.2⟩
    · intro h
      exact ⟨by omega, h.1, h.2.2⟩

/-- New nodes are added behind the old ones, and edges that insert a language between two nodes. -/
def Generates (nfa nfa₁ : NFABuilders) (source destination : ℕ) (language : Language ℕ) : Prop :=
  nfa.length ≤ nfa₁.length ∧ ∃ added : Edges ℕ ℕ,
    (∀ p x q, nfa₁.edges p x q ↔ nfa.edges p x q ∨ added p x q) ∧
      Inserts added (Set.Ico nfa.length nfa₁.length) source destination language

@[simp]
theorem length_addEpsilonTransition : (nfa.addEpsilonTransition source dest).length = nfa.length :=
  List.length_modify _ _ _

/-- Edges from the source straight to the destination. -/
theorem generates_of_edges {labels : Set (Option ℕ)} (hlen : nfa₁.length = nfa.length)
    (hedges : ∀ p x q, nfa₁.edges p x q ↔ nfa.edges p x q ∨ p = source ∧ q = dest ∧ x ∈ labels)
    (hlanguage : ∀ word, word ∈ language ↔ ∃ x ∈ labels, x.toList = word) :
    Generates nfa nfa₁ source dest language := by
  refine ⟨Nat.le_of_eq hlen.symm, _, hedges, ?_⟩
  rw [hlen, Set.Ico_self]
  exact inserts_edges source dest hlanguage

theorem generates_epsilon (hsrc : source < nfa.length) :
    Generates nfa (nfa.addEpsilonTransition source dest) source dest 1 :=
  generates_of_edges length_addEpsilonTransition (fun _ _ _ => edges_addEpsilonTransition hsrc)
    fun word => by simp [Language.mem_one, eq_comm]

theorem generates_characterSet (set : CharacterSet) (hsrc : source < nfa.length) :
    Generates nfa (nfa.modify source (addCharacterSet set dest)) source dest
      set.language := by
  refine generates_of_edges (List.length_modify _ _ _) (fun _ _ _ => edges_modify hsrc
    fun builder _ _ => edge_addCharacterSet set builder) fun word => ?_
  constructor
  · intro ⟨c, hc, hword⟩
    exact ⟨some c, ⟨c, rfl, hc⟩, hword.symm⟩
  · intro ⟨x, ⟨c, hx, hc⟩, hword⟩
    exact ⟨c, hc, by rw [← hword, hx]; rfl⟩

/-- Two subgraphs side by side. -/
theorem Generates.union (h₁ : Generates nfa nfa₁ source dest language₁)
    (h₂ : Generates nfa₁ nfa₂ source dest language₂) :
    Generates nfa nfa₂ source dest (language₁ + language₂) := by
  obtain ⟨hle₁, added₁, hedges₁, hinserts₁⟩ := h₁
  obtain ⟨hle₂, added₂, hedges₂, hinserts₂⟩ := h₂
  refine ⟨hle₁.trans hle₂, _, fun p x q => ?_, (hinserts₁.union hinserts₂ ?_).congr
    (fun _ _ _ => Iff.rfl) (Set.Ico_union_Ico_eq_Ico hle₁ hle₂).symm⟩
  · rw [hedges₂, hedges₁, or_assoc]
  · intro p hp₁ hp₂
    exact lt_irrefl p (hp₁.2.trans_le hp₂.1)

/-- Two subgraphs one behind the other. -/
theorem Generates.seq (h₁ : Generates (nfa ++ [.empty]) nfa₁ source nfa.length language₁)
    (h₂ : Generates nfa₁ nfa₂ nfa.length dest language₂) (hsrc : source < nfa.length)
    (hdest : dest < nfa.length) :
    Generates nfa nfa₂ source dest (language₁ * language₂) := by
  obtain ⟨hle₁, added₁, hedges₁, hinserts₁⟩ := h₁
  obtain ⟨hle₂, added₂, hedges₂, hinserts₂⟩ := h₂
  rw [List.length_append, List.length_singleton] at hle₁ hinserts₁
  refine ⟨by omega, _, fun p x q => ?_, (hinserts₁.seq hinserts₂ ?_ ?_ ?_ ?_ ?_).congr
    (fun _ _ _ => Iff.rfl) ?_⟩
  · rw [hedges₂, hedges₁, edges_append_empty, or_assoc]
  · intro p hp₁ hp₂
    exact lt_irrefl p (hp₁.2.trans_le hp₂.1)
  · exact fun hmem => absurd hmem.1 (by omega)
  · exact fun hmem => absurd hmem.1 (by omega)
  · omega
  · omega
  · ext p
    simp only [Set.mem_Ico, Set.mem_insert_iff, Set.mem_union]
    omega

/-- A subgraph that can be repeated. -/
theorem Generates.repeated {atom : Subgraph}
    (h : ∀ {nfa source dest}, source < List.length nfa → dest < nfa.length →
      Generates nfa (atom nfa source dest) source dest language)
    (hsrc : source < nfa.length) (hdest : dest < nfa.length) :
    Generates nfa (atom.repeated nfa source dest) source dest
      (language * language∗) := by
  set entered := addEpsilonTransition (nfa ++ [.empty]) source nfa.length with hentered
  have hlen : entered.length = nfa.length + 1 := by simp [hentered]
  obtain ⟨hle, added, hedges, hins⟩ := @h (entered ++ [.empty]) nfa.length entered.length
    (by simp [hlen]) (by simp)
  rw [List.length_append, List.length_singleton, hlen] at hle hins
  rw [hlen] at hedges
  have hrep : atom.repeated nfa source dest =
      ((atom (entered ++ [.empty]) nfa.length (nfa.length + 1)).addEpsilonTransition (nfa.length + 1)
        nfa.length).addEpsilonTransition (nfa.length + 1) dest := by
    rw [Subgraph.repeated, ← hentered, hlen]
  rw [hrep]
  refine ⟨by simp; omega, _, fun p x q => ?_, (hins.repeated (s := source) (d := dest)
    ?_ ?_ ?_).congr (fun _ _ _ => Iff.rfl) ?_⟩
  · rw [edges_addEpsilonTransition (by simp; omega), edges_addEpsilonTransition (by omega), hedges,
      edges_append_empty, hentered, edges_addEpsilonTransition (by simp; omega), edges_append_empty]
    simp only [repeatEdges, Set.mem_singleton_iff]
    tauto
  · omega
  · simp only [Set.mem_insert_iff, Set.mem_Ico]
    omega
  · simp only [Set.mem_insert_iff, Set.mem_Ico]
    omega
  · ext p
    simp only [Set.mem_insert_iff, Set.mem_Ico, length_addEpsilonTransition]
    omega

theorem Generates.setActions (h : Generates nfa nfa₁ source dest language) (p : ℕ)
    (actions : List ℕ) :
    Generates nfa (nfa₁.modify p (·.setActions actions)) source dest language := by
  obtain ⟨hle, added, hedges, hins⟩ := h
  unfold Generates
  rw [List.length_modify]
  exact ⟨hle, added, fun p x q => (edges_setActions actions).trans (hedges p x q), hins⟩

theorem Generates.quantify {atom : Subgraph} (quantifier : AtomQuantifier)
    (h : ∀ {nfa source dest}, source < List.length nfa → dest < nfa.length →
      Generates nfa (atom nfa source dest) source dest language)
    (hsrc : source < nfa.length) (hdest : dest < nfa.length) :
    Generates nfa (atom.quantify quantifier nfa source dest) source dest
      (quantifier.language language) := by
  have hlt {nfa₁ : NFABuilders} {language : Language ℕ}
      (h : Generates nfa nfa₁ source dest language) : source < nfa₁.length :=
    hsrc.trans_le h.1
  cases quantifier with
  | one => exact h hsrc hdest
  | zeroOrOne =>
    have hatom := h hsrc hdest
    exact hatom.union (generates_epsilon (hlt hatom))
  | zeroOrMore =>
    have hrep := Generates.repeated h hsrc hdest
    have hepsilon : Generates _ _ source dest 1 := generates_epsilon (hlt hrep)
    have hunion := hrep.union hepsilon
    rw [add_comm, Language.one_add_self_mul_kstar_eq_kstar] at hunion
    exact hunion
  | oneOrMore => exact Generates.repeated h hsrc hdest

end NFABuilders

open NFABuilders

mutual

/-- The language of a term is inserted between the source and the destination. -/
theorem Term.generates (term : Term) {nfa : NFABuilders} {source dest : ℕ}
    (hsrc : source < nfa.length) (hdest : dest < nfa.length) :
    Generates nfa (term.generateGraph nfa source dest) source dest term.language := by
  cases term with
  | characterSet set quantifier =>
    rw [generateGraph, language]
    exact .quantify quantifier (fun hsrc _ => generates_characterSet set hsrc) hsrc
      hdest
  | group terms quantifier =>
    rw [generateGraph, language]
    exact .quantify quantifier (Term.generates_group terms) hsrc hdest

theorem Term.generates_group (terms : List Term) {nfa : NFABuilders} {source dest : ℕ}
    (hsrc : source < nfa.length) (hdest : dest < nfa.length) :
    Generates nfa (generateGroup terms nfa source dest) source dest
      (groupLanguage terms) := by
  cases terms with
  | nil =>
    rw [generateGroup, groupLanguage]
    exact generates_epsilon hsrc
  | cons term terms =>
    rw [generateGroup, groupLanguage]
    by_cases hterms : terms.isEmpty
    · rw [if_pos hterms, List.isEmpty_iff.mp hterms, groupLanguage, mul_one]
      exact term.generates hsrc hdest
    · rw [if_neg hterms]
      have hend : nfa.length < (nfa ++ [ImmutableNFANodeBuilder.empty]).length := by simp
      have hfst := (term.generates (hsrc.trans hend) hend).setActions nfa.length []
      have hmiddle := hend.trans_le hfst.1
      exact hfst.seq (Term.generates_group terms hmiddle (hdest.trans hmiddle)) hsrc
        hdest

end

def NFABuilders.finalize (orders : ℕ → SinkOrders) (nfa : NFABuilders) : NFA where
  nodes := nfa.mapIdx fun nodeId builder => builder.finalize (orders nodeId)

theorem NFABuilders.mem_step_finalize_iff {orders : ℕ → SinkOrders} {nfa : NFABuilders} {p q : ℕ}
    {x : Option ℕ} : q ∈ (nfa.finalize orders).automaton.step p x ↔ nfa.edges p x q := by
  have hnode : (nfa.finalize orders).nodes[p]? =
      nfa[p]?.map fun builder => builder.finalize (orders p) := List.getElem?_mapIdx
  cases x with
  | none =>
    change q ∈ (nfa.finalize orders).epsilonTransitionTargets p ↔ _
    rw [NFA.epsilonTransitionTargets, hnode, edges]
    cases nfa[p]? with
    | none => simp
    | some builder =>
      simp only [Option.map_some, Option.elim_some, Option.some.injEq, exists_eq_left']
      exact (orders p).epsilonTransitionTargets.mem_order
  | some c =>
    change (∃ range ∈ (nfa.finalize orders).transitionsForNode p, _) ↔ _
    rw [NFA.transitionsForNode, hnode, edges]
    cases nfa[p]? with
    | none => simp
    | some builder =>
      simp only [Option.map_some, Option.elim_some, Option.some.injEq, exists_eq_left']
      exact ImmutableNFANodeBuilder.exists_finalize_iff (orders p)

/-- The new edges lead from the source to the destination by the words of the language, and ways
between old nodes are composed of old edges and such words. -/
theorem Term.generateGraph_adds_language (term : Term) (orders : ℕ → SinkOrders) {nfa : NFABuilders}
    {source dest : ℕ}
    (hnfa : ∀ p x q, q ∈ (nfa.finalize orders).automaton.step p x → q < nfa.length)
    (hsource : source < nfa.length) (hdest : dest < nfa.length) :
    let nfa₁ := term.generateGraph nfa source dest
    (∃ added : Edges ℕ ℕ, (∀ p x q, q ∈ (nfa₁.finalize orders).automaton.step p x ↔
        q ∈ (nfa.finalize orders).automaton.step p x ∨ added p x q) ∧
      Inserts added (Set.Ico nfa.length nfa₁.length) source dest term.language) ∧
    ∀ p q, p < nfa.length → q < nfa.length → ∀ word, (∃ x : List (Option ℕ), x.reduceOption = word ∧
        (nfa₁.finalize orders).automaton.IsPath p q x) ↔
      Composed (fun p x q => q ∈ (nfa.finalize orders).automaton.step p x) source dest
        term.language p word q := by
  intro nfa₁
  obtain ⟨-, added, hedges, hins⟩ := term.generates hsource hdest
  have hsteps : ∀ p x q, q ∈ (nfa₁.finalize orders).automaton.step p x ↔
      q ∈ (nfa.finalize orders).automaton.step p x ∨ added p x q := by
    intro p x q
    rw [mem_step_finalize_iff, mem_step_finalize_iff]
    exact hedges p x q
  refine ⟨⟨added, hsteps, hins⟩, fun p q hp hq word => ?_⟩
  have hold : ∀ p x q, q ∈ (nfa.finalize orders).automaton.step p x →
      p ∉ Set.Ico nfa.length nfa₁.length ∧ q ∉ Set.Ico nfa.length nfa₁.length := by
    intro p x q hstep
    have hp := lt_of_edges (mem_step_finalize_iff.mp hstep)
    have hq := hnfa p x q hstep
    exact ⟨fun hmem => absurd hmem.1 (by omega), fun hmem => absurd hmem.1 (by omega)⟩
  rw [exists_isPath_iff, ← hins.path_iff hold (fun hmem => absurd hmem.1 (by omega))
    (fun hmem => absurd hmem.1 (by omega))]
  simp only [hsteps]

/-- One or more of the letter a between two nodes: the letter leads from the source to the
destination. -/
theorem Term.generateGraph_adds_plus :
    let orders : ℕ → SinkOrders := fun _ => ⟨fun _ => .insertion, .insertion, .insertion⟩
    let nfa : NFABuilders := [.empty, .empty]
    let plus := Term.characterSet ⟨false, (0, 0x200000000)⟩ .oneOrMore
    ∃ x : List (Option ℕ), x.reduceOption = [97] ∧
      ((plus.generateGraph nfa 0 1).finalize orders).automaton.IsPath 0 1 x := by
  intro orders nfa plus
  have hnfa : ∀ p x q, q ∈ (nfa.finalize orders).automaton.step p x → q < nfa.length := by
    intro p x q hstep
    have hedge : edges ([] ++ [.empty] ++ [.empty]) p x q := mem_step_finalize_iff.mp hstep
    rw [edges_append_empty, edges_append_empty] at hedge
    exact absurd (lt_of_edges hedge) (Nat.not_lt_zero p)
  have hadds := plus.generateGraph_adds_language orders hnfa (by decide : 0 < 2) (by decide : 1 < 2)
  refine (hadds.2 0 1 (by decide) (by decide) [97]).mpr ?_
  have hletter : [97] ∈ CharacterSet.language ⟨false, (0, 0x200000000)⟩ :=
    ⟨97, by unfold CharacterSet.Matches; decide, rfl⟩
  have hmem : [97] ∈ plus.language :=
    Language.mem_mul.mpr ⟨[97], hletter, [], Language.nil_mem_kstar _, rfl⟩
  exact .inserted hmem (.nil 1)

end WebKit.ContentExtensions
