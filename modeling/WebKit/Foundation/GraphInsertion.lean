import Mathlib

/-!
Graphs whose edges carry a letter or nothing, and what it means to insert a language between two
nodes: new edges lead from the source through fresh nodes to the destination, and the words on these
ways are those of the language. Insertions are put side by side, one behind the other, and repeated.
The ways between the old nodes of the whole graph are then composed of old edges and of words of the
language between the source and the destination.
-/

namespace WebKit.GraphInsertion

open scoped Computability

variable {σ α : Type*}

abbrev Edges (σ α : Type*) := σ → Option α → σ → Prop

inductive Segment (edges : Edges σ α) (fresh : Set σ) : σ → List α → σ → Prop
  | edge {p q : σ} {x : Option α} (h : edges p x q) : Segment edges fresh p x.toList q
  | cons {p m q : σ} {x : Option α} {word : List α} (h : edges p x m) (hm : m ∈ fresh)
      (rest : Segment edges fresh m word q) : Segment edges fresh p (x.toList ++ word) q

/-- The edges lead from the source through fresh nodes to the destination, by the words of the
language. -/
structure Inserts (edges : Edges σ α) (fresh : Set σ) (source destination : σ)
    (language : Language α) : Prop where
  source_or_fresh : ∀ {p x q}, edges p x q → p = source ∨ p ∈ fresh
  destination_or_fresh : ∀ {p x q}, edges p x q → q = destination ∨ q ∈ fresh
  source_not_mem : source ∉ fresh
  destination_not_mem : destination ∉ fresh
  segment_iff : ∀ word, Segment edges fresh source word destination ↔ word ∈ language

section Segments

variable {edges edges' : Edges σ α} {fresh fresh' : Set σ} {p q m : σ} {word rest : List α}

theorem Segment.mono (h : Segment edges fresh p word q)
    (hedges : ∀ p x q, edges p x q → edges' p x q) (hfresh : fresh ⊆ fresh') : Segment edges' fresh' p word q := by
  induction h with
  | edge h => exact .edge (hedges _ _ _ h)
  | cons h hm _ ih => exact .cons (hedges _ _ _ h) (hfresh hm) ih

theorem Segment.append (h : Segment edges fresh p word m) (hm : m ∈ fresh)
    (hrest : Segment edges fresh m rest q) : Segment edges fresh p (word ++ rest) q := by
  induction h with
  | edge h => exact .cons h hm hrest
  | cons h hinner _ ih =>
    rw [List.append_assoc]
    exact .cons h hinner (ih hm hrest)

/-- A way that only meets nodes with the edges of a smaller graph is a way of that graph. -/
theorem Segment.restrict {nodes : Set σ} (h : Segment edges' fresh' p word q) (hp : p ∈ nodes)
    (hedges : ∀ p ∈ nodes, ∀ x q, edges' p x q → edges p x q)
    (hnext : ∀ {p x q}, edges p x q → q ∈ fresh' → q ∈ fresh) (hfresh : fresh ⊆ nodes) :
    Segment edges fresh p word q := by
  induction h with
  | edge h => exact .edge (hedges _ hp _ _ h)
  | cons h hm _ ih =>
    have hedge := hedges _ hp _ _ h
    have hm := hnext hedge hm
    exact .cons hedge hm (ih (hfresh hm))

end Segments

section Insertions

variable {edges edges₁ edges₂ : Edges σ α} {fresh fresh₁ fresh₂ : Set σ} {s m d : σ}
  {language language₁ language₂ : Language α}

/-- Edges from the source straight to the destination. -/
theorem inserts_edges {labels : Set (Option α)} (s d : σ)
    (hlanguage : ∀ word, word ∈ language ↔ ∃ x ∈ labels, x.toList = word) :
    Inserts (fun p x q => p = s ∧ q = d ∧ x ∈ labels) ∅ s d language where
  source_or_fresh h := .inl h.1
  destination_or_fresh h := .inl h.2.1
  source_not_mem := Set.notMem_empty s
  destination_not_mem := Set.notMem_empty d
  segment_iff word := by
    rw [hlanguage]
    constructor
    · intro h
      cases h with
      | edge h => exact ⟨_, h.2.2, rfl⟩
      | cons _ hm _ => exact absurd hm (Set.notMem_empty _)
    · intro ⟨x, hx, hword⟩
      rw [← hword]
      exact .edge ⟨rfl, rfl, hx⟩

theorem Inserts.congr (h : Inserts edges fresh s d language)
    (hedges : ∀ p x q, edges₁ p x q ↔ edges p x q) (hfresh : fresh₁ = fresh) :
    Inserts edges₁ fresh₁ s d language := by
  have hsame : edges₁ = edges := by
    funext p x q
    exact propext (hedges p x q)
  rw [hsame, hfresh]
  exact h

/-- Two insertions side by side. -/
theorem Inserts.union (h₁ : Inserts edges₁ fresh₁ s d language₁)
    (h₂ : Inserts edges₂ fresh₂ s d language₂) (hdisj : ∀ p ∈ fresh₁, p ∉ fresh₂) :
    Inserts (fun p x q => edges₁ p x q ∨ edges₂ p x q) (fresh₁ ∪ fresh₂) s d
      (language₁ + language₂) where
  source_or_fresh h := by
    rcases h with h | h
    · exact (h₁.source_or_fresh h).imp_right .inl
    · exact (h₂.source_or_fresh h).imp_right .inr
  destination_or_fresh h := by
    rcases h with h | h
    · exact (h₁.destination_or_fresh h).imp_right .inl
    · exact (h₂.destination_or_fresh h).imp_right .inr
  source_not_mem h := h.elim h₁.source_not_mem h₂.source_not_mem
  destination_not_mem h := h.elim h₁.destination_not_mem h₂.destination_not_mem
  segment_iff word := by
    have hd : d ∉ fresh₁ ∪ fresh₂ := fun h => h.elim h₁.destination_not_mem h₂.destination_not_mem
    rw [Language.mem_add, ← h₁.segment_iff, ← h₂.segment_iff]
    constructor
    · intro h
      cases h with
      | edge h => exact h.imp .edge .edge
      | cons h hm rest =>
        rcases h with h | h
        · have hfresh := (h₁.destination_or_fresh h).resolve_left fun heq => hd (heq ▸ hm)
          refine .inl (.cons h hfresh (rest.restrict hfresh ?_ ?_ (Set.Subset.refl _)))
          · intro p hp x q hedge
            refine hedge.resolve_right fun hoth => ?_
            rcases h₂.source_or_fresh hoth with rfl | hfresh₂
            · exact h₁.source_not_mem hp
            · exact hdisj p hp hfresh₂
          · intro p x q hedge hq
            exact (h₁.destination_or_fresh hedge).resolve_left fun heq => hd (heq ▸ hq)
        · have hfresh := (h₂.destination_or_fresh h).resolve_left fun heq => hd (heq ▸ hm)
          refine .inr (.cons h hfresh (rest.restrict hfresh ?_ ?_ (Set.Subset.refl _)))
          · intro p hp x q hedge
            refine hedge.resolve_left fun hoth => ?_
            rcases h₁.source_or_fresh hoth with rfl | hfresh₁
            · exact h₂.source_not_mem hp
            · exact hdisj p hfresh₁ hp
          · intro p x q hedge hq
            exact (h₂.destination_or_fresh hedge).resolve_left fun heq => hd (heq ▸ hq)
    · intro h
      rcases h with h | h
      · exact h.mono (fun _ _ _ => .inl) Set.subset_union_left
      · exact h.mono (fun _ _ _ => .inr) Set.subset_union_right

section

variable (h₁ : Inserts edges₁ fresh₁ s m language₁) (h₂ : Inserts edges₂ fresh₂ m d language₂)
  (hdisj : ∀ p ∈ fresh₁, p ∉ fresh₂) (hs : s ∉ fresh₂) (hd : d ∉ fresh₁) (hsm : s ≠ m) (hdm : d ≠ m)

include h₁ h₂ hdisj hs hd hsm hdm

/-- A way behind the source of a chain goes to the middle first. -/
theorem Inserts.split_segment {p : σ} {word : List α} (hp : p = s ∨ p ∈ fresh₁)
    (h : Segment (fun p x q => edges₁ p x q ∨ edges₂ p x q) (insert m (fresh₁ ∪ fresh₂)) p word d) :
    ∃ u v, word = u ++ v ∧ Segment edges₁ fresh₁ p u m ∧ Segment edges₂ fresh₂ m v d := by
  have hfst {p q : σ} {x : Option α} (hp : p = s ∨ p ∈ fresh₁)
      (h : edges₁ p x q ∨ edges₂ p x q) : edges₁ p x q := by
    refine h.resolve_right fun hedge => ?_
    rcases hp with rfl | hp
    · exact (h₂.source_or_fresh hedge).elim hsm hs
    · rcases h₂.source_or_fresh hedge with rfl | hfresh
      · exact h₁.destination_not_mem hp
      · exact hdisj p hp hfresh
  have hlast {p q : σ} {x : Option α} (hp : p = m ∨ p ∈ fresh₂)
      (h : edges₁ p x q ∨ edges₂ p x q) : edges₂ p x q := by
    refine h.resolve_left fun hedge => ?_
    rcases hp with rfl | hp
    · exact (h₁.source_or_fresh hedge).elim (fun heq => hsm heq.symm) h₁.destination_not_mem
    · rcases h₁.source_or_fresh hedge with heq | hfresh
      · exact hs (heq ▸ hp)
      · exact hdisj p hfresh hp
  have hdfresh : d ∉ insert m (fresh₁ ∪ fresh₂) := by
    intro hmem
    rcases hmem with heq | hfresh | hfresh
    · exact hdm heq
    · exact hd hfresh
    · exact h₂.destination_not_mem hfresh
  generalize hend : d = last at h
  induction h with
  | edge h =>
    subst hend
    exact ((h₁.destination_or_fresh (hfst hp h)).elim hdm hd).elim
  | @cons p inner q x word h hm rest ih =>
    subst hend
    have hedge := hfst hp h
    rcases h₁.destination_or_fresh hedge with rfl | hfresh
    · refine ⟨x.toList, word, rfl, .edge hedge, ?_⟩
      refine rest.restrict (Set.mem_insert _ fresh₂) ?_ ?_ (Set.subset_insert _ _)
      · intro p hp x q hedge
        exact hlast hp hedge
      · intro p x q hedge hq
        exact (h₂.destination_or_fresh hedge).resolve_left fun heq => hdfresh (heq ▸ hq)
    · obtain ⟨u, v, rfl, hu, hv⟩ := ih (.inr hfresh) rfl
      exact ⟨x.toList ++ u, v, (List.append_assoc _ _ _).symm, .cons hedge hfresh hu, hv⟩

/-- Two insertions one behind the other, with a fresh node in the middle. -/
theorem Inserts.seq :
    Inserts (fun p x q => edges₁ p x q ∨ edges₂ p x q) (insert m (fresh₁ ∪ fresh₂)) s d
      (language₁ * language₂) where
  source_or_fresh h := by
    rcases h with h | h
    · exact (h₁.source_or_fresh h).imp_right fun hfresh => .inr (.inl hfresh)
    · rcases h₂.source_or_fresh h with rfl | hfresh
      · exact .inr (Set.mem_insert _ _)
      · exact .inr (.inr (.inr hfresh))
  destination_or_fresh h := by
    rcases h with h | h
    · rcases h₁.destination_or_fresh h with rfl | hfresh
      · exact .inr (Set.mem_insert _ _)
      · exact .inr (.inr (.inl hfresh))
    · exact (h₂.destination_or_fresh h).imp_right fun hfresh => .inr (.inr hfresh)
  source_not_mem h := by
    rcases h with heq | hfresh | hfresh
    · exact hsm heq
    · exact h₁.source_not_mem hfresh
    · exact hs hfresh
  destination_not_mem h := by
    rcases h with heq | hfresh | hfresh
    · exact hdm heq
    · exact hd hfresh
    · exact h₂.destination_not_mem hfresh
  segment_iff word := by
    rw [Language.mem_mul]
    constructor
    · intro h
      obtain ⟨u, v, rfl, hu, hv⟩ := h₁.split_segment h₂ hdisj hs hd hsm hdm (.inl rfl) h
      exact ⟨u, (h₁.segment_iff u).mp hu, v, (h₂.segment_iff v).mp hv, rfl⟩
    · intro ⟨u, hu, v, hv, hword⟩
      rw [← hword]
      refine Segment.append (m := m) ?_ (Set.mem_insert _ _) ?_
      · exact ((h₁.segment_iff u).mpr hu).mono (fun _ _ _ => .inl) fun _ hp => .inr (.inl hp)
      · exact ((h₂.segment_iff v).mpr hv).mono (fun _ _ _ => .inr) fun _ hp => .inr (.inr hp)

end

def repeatEdges (edges : Edges σ α) (s r e d : σ) : Edges σ α := fun p x q =>
  edges p x q ∨ x = none ∧ (p = s ∧ q = r ∨ p = e ∧ q = r ∨ p = e ∧ q = d)

section Repetition

variable {r e : σ} {word : List α}

theorem Inserts.segment_once (h : Inserts edges fresh r e language) (hword : word ∈ language) :
    Segment (repeatEdges edges s r e d) (insert r (insert e fresh)) r word e :=
  ((h.segment_iff word).mpr hword).mono (fun _ _ _ => .inl) fun _ hp => .inr (.inr hp)

/-- From its end, a part can be repeated any number of times. -/
theorem Inserts.segment_of_kstar (h : Inserts edges fresh r e language) (hword : word ∈ language∗) :
    Segment (repeatEdges edges s r e d) (insert r (insert e fresh)) e word d := by
  obtain ⟨words, rfl, hwords⟩ := Language.mem_kstar.mp hword
  induction words with
  | nil => exact Segment.edge (x := none) (.inr ⟨rfl, .inr (.inr ⟨rfl, rfl⟩)⟩)
  | cons first words ih =>
    obtain ⟨hfst, hrest⟩ := List.forall_mem_cons.mp hwords
    have hback : repeatEdges edges s r e d e none r := .inr ⟨rfl, .inr (.inl ⟨rfl, rfl⟩)⟩
    rw [List.flatten_cons]
    have hrepeat := ih hrest (Language.join_mem_kstar hrest)
    exact .cons hback (Set.mem_insert _ _)
      ((h.segment_once hfst).append (.inr (Set.mem_insert _ _)) hrepeat)

variable (h : Inserts edges fresh r e language) (hre : r ≠ e)
  (hs : s ∉ insert r (insert e fresh)) (hd : d ∉ insert r (insert e fresh))

include h hre hs hd

/-- The ways out of a repeated part: from its inside the part is completed, and from its end it is
repeated. -/
theorem Inserts.repeat_segment {p last : σ} (hlast : last = d)
    (hword : Segment (repeatEdges edges s r e d) (insert r (insert e fresh)) p word last) :
    (p = r ∨ p ∈ fresh → ∃ u v, word = u ++ v ∧ Segment edges fresh p u e ∧ v ∈ language∗) ∧
      (p = e → word ∈ language∗) := by
  have hin {p q : σ} {x : Option α} (hp : p = r ∨ p ∈ fresh)
      (hedge : repeatEdges edges s r e d p x q) : edges p x q := by
    have hps : p ≠ s := by
      intro heq
      subst heq
      exact hs (hp.imp_right .inr)
    have hpe : p ≠ e := by
      intro heq
      rcases hp with hp | hp
      · exact hre (hp.symm.trans heq)
      · exact h.destination_not_mem (heq ▸ hp)
    refine hedge.resolve_right fun hadded => ?_
    rcases hadded.2 with hadded | hadded | hadded
    · exact hps hadded.1
    · exact hpe hadded.1
    · exact hpe hadded.1
  have hend {q : σ} {x : Option α} (hedge : repeatEdges edges s r e d e x q) :
      x = none ∧ (q = r ∨ q = d) := by
    rcases hedge with hedge | ⟨hx, hadded | hadded | hadded⟩
    · exact ((h.source_or_fresh hedge).elim (fun heq => hre heq.symm) h.destination_not_mem).elim
    · exact (hs (.inr (.inl hadded.1.symm))).elim
    · exact ⟨hx, .inl hadded.2⟩
    · exact ⟨hx, .inr hadded.2⟩
  induction hword with
  | edge hedge =>
    subst hlast
    refine ⟨fun hp => ?_, fun hp => ?_⟩
    · rcases h.destination_or_fresh (hin hp hedge) with heq | hfresh
      · exact (hd (.inr (.inl heq))).elim
      · exact (hd (.inr (.inr hfresh))).elim
    · subst hp
      rw [(hend hedge).1]
      exact Language.nil_mem_kstar _
  | @cons p inner last x word hedge hm rest ih =>
    obtain ⟨hinner, hrepeat⟩ := ih hlast
    refine ⟨fun hp => ?_, fun hp => ?_⟩
    · have hpart := hin hp hedge
      rcases h.destination_or_fresh hpart with heq | hfresh
      · subst heq
        exact ⟨x.toList, word, rfl, .edge hpart, hrepeat rfl⟩
      · obtain ⟨u, v, rfl, hu, hv⟩ := hinner (.inr hfresh)
        exact ⟨x.toList ++ u, v, (List.append_assoc _ _ _).symm, .cons hpart hfresh hu, hv⟩
    · subst hp
      obtain ⟨rfl, heq | heq⟩ := hend hedge
      · subst heq
        obtain ⟨u, v, rfl, hu, hv⟩ := hinner (.inl rfl)
        rw [← Language.one_add_self_mul_kstar_eq_kstar, Language.mem_add]
        exact .inr (Language.mem_mul.mpr ⟨u, (h.segment_iff u).mp hu, v, hv, rfl⟩)
      · exact (hd (heq ▸ hm)).elim

/-- A part that is repeated at least once. -/
theorem Inserts.repeated : Inserts (repeatEdges edges s r e d) (insert r (insert e fresh)) s d
    (language * language∗) where
  source_or_fresh hedge := by
    rcases hedge with hedge | ⟨-, hadded | hadded | hadded⟩
    · rcases h.source_or_fresh hedge with heq | hfresh
      · exact .inr (.inl heq)
      · exact .inr (.inr (.inr hfresh))
    · exact .inl hadded.1
    · exact .inr (.inr (.inl hadded.1))
    · exact .inr (.inr (.inl hadded.1))
  destination_or_fresh hedge := by
    rcases hedge with hedge | ⟨-, hadded | hadded | hadded⟩
    · rcases h.destination_or_fresh hedge with heq | hfresh
      · exact .inr (.inr (.inl heq))
      · exact .inr (.inr (.inr hfresh))
    · exact .inr (.inl hadded.2)
    · exact .inr (.inl hadded.2)
    · exact .inl hadded.2
  source_not_mem := hs
  destination_not_mem := hd
  segment_iff word := by
    have hstart {q : σ} {x : Option α} (hedge : repeatEdges edges s r e d s x q) :
        x = none ∧ q = r := by
      rcases hedge with hedge | ⟨hx, hadded | hadded | hadded⟩
      · rcases h.source_or_fresh hedge with heq | hfresh
        · exact (hs (.inl heq)).elim
        · exact (hs (.inr (.inr hfresh))).elim
      · exact ⟨hx, hadded.2⟩
      · exact (hs (.inr (.inl hadded.1))).elim
      · exact (hs (.inr (.inl hadded.1))).elim
    rw [Language.mem_mul]
    constructor
    · intro hword
      cases hword with
      | edge hedge => exact (hd (.inl (hstart hedge).2)).elim
      | cons hedge hm rest =>
        obtain ⟨rfl, heq⟩ := hstart hedge
        subst heq
        obtain ⟨u, v, rfl, hu, hv⟩ := (h.repeat_segment hre hs hd rfl rest).1 (.inl rfl)
        exact ⟨u, (h.segment_iff u).mp hu, v, hv, rfl⟩
    · intro ⟨u, hu, v, hv, hword⟩
      rw [← hword]
      have hinto : repeatEdges edges s r e d s none r := .inr ⟨rfl, .inl ⟨rfl, rfl⟩⟩
      exact .cons hinto (Set.mem_insert _ _)
        ((h.segment_once hu).append (.inr (Set.mem_insert _ _)) (h.segment_of_kstar hv))

end Repetition

end Insertions

inductive Path (edges : Edges σ α) : σ → List α → σ → Prop
  | nil (p : σ) : Path edges p [] p
  | cons {p m q : σ} {x : Option α} {word : List α} (h : edges p x m) (rest : Path edges m word q) :
      Path edges p (x.toList ++ word) q

/-- A way along old edges and, from the source to the destination, along words of a language. -/
inductive Composed (edges : Edges σ α) (source destination : σ) (language : Language α) :
    σ → List α → σ → Prop
  | nil (p : σ) : Composed edges source destination language p [] p
  | old {p m q : σ} {x : Option α} {word : List α} (h : edges p x m)
      (rest : Composed edges source destination language m word q) :
      Composed edges source destination language p (x.toList ++ word) q
  | inserted {q : σ} {u word : List α} (h : u ∈ language)
      (rest : Composed edges source destination language destination word q) :
      Composed edges source destination language source (u ++ word) q

section Paths

variable {edges added : Edges σ α} {fresh : Set σ} {s d p q m : σ} {language : Language α}
  {word rest : List α}

theorem Path.append (h : Path edges p word m) (hrest : Path edges m rest q) :
    Path edges p (word ++ rest) q := by
  induction h with
  | nil => exact hrest
  | cons h _ ih =>
    rw [List.append_assoc]
    exact .cons h (ih hrest)

theorem Segment.path (h : Segment added fresh p word q) :
    Path (fun p x q => edges p x q ∨ added p x q) p word q := by
  induction h with
  | @edge p q x h =>
    rw [← List.append_nil x.toList]
    exact .cons (.inr h) (.nil q)
  | cons h _ _ ih => exact .cons (.inr h) ih

section

variable (h : Inserts added fresh s d language)
  (hold : ∀ p x q, edges p x q → p ∉ fresh ∧ q ∉ fresh)

include h hold

/-- From a fresh node a way to an old one goes to the destination first. -/
theorem Inserts.composed (hq : q ∉ fresh)
    (hpath : Path (fun p x q => edges p x q ∨ added p x q) p word q) :
    (p ∉ fresh → Composed edges s d language p word q) ∧
      (p ∈ fresh → ∃ u v, word = u ++ v ∧ Segment added fresh p u d ∧
        Composed edges s d language d v q) := by
  induction hpath with
  | nil p => exact ⟨fun _ => .nil p, fun hp => absurd hp hq⟩
  | @cons p m q x word hedge rest ih =>
    obtain ⟨hout, hin⟩ := ih hq
    rcases hedge with hedge | hedge
    · obtain ⟨hp, hm⟩ := hold p x m hedge
      exact ⟨fun _ => .old hedge (hout hm), fun hfresh => absurd hfresh hp⟩
    · have hway : ∃ u v, x.toList ++ word = u ++ v ∧ Segment added fresh p u d ∧
          Composed edges s d language d v q := by
        rcases h.destination_or_fresh hedge with rfl | hm
        · exact ⟨x.toList, word, rfl, .edge hedge, hout h.destination_not_mem⟩
        · obtain ⟨u, v, rfl, hu, hv⟩ := hin hm
          exact ⟨x.toList ++ u, v, (List.append_assoc _ _ _).symm, .cons hedge hm hu, hv⟩
      refine ⟨fun hp => ?_, fun _ => hway⟩
      obtain ⟨u, v, hword, hu, hv⟩ := hway
      have hps : p = s := (h.source_or_fresh hedge).resolve_right hp
      subst hps
      rw [hword]
      exact .inserted ((h.segment_iff u).mp hu) hv

/-- The ways between old nodes are composed of old edges and of words of the language. -/
theorem Inserts.path_iff (hp : p ∉ fresh) (hq : q ∉ fresh) :
    Path (fun p x q => edges p x q ∨ added p x q) p word q ↔
      Composed edges s d language p word q := by
  constructor
  · intro hpath
    exact (h.composed hold hq hpath).1 hp
  · intro hcomposed
    clear hp hq
    induction hcomposed with
    | nil p => exact .nil p
    | old hedge _ ih => exact .cons (.inl hedge) ih
    | inserted hu _ ih => exact ((h.segment_iff _).mpr hu).path.append ih

end

/-- The ways along the steps of an automaton. -/
theorem exists_isPath_iff (automaton : εNFA α σ) :
    (∃ x : List (Option α), x.reduceOption = word ∧ automaton.IsPath p q x) ↔
      Path (fun p x q => q ∈ automaton.step p x) p word q := by
  constructor
  · intro ⟨x, hword, hpath⟩
    subst hword
    induction hpath with
    | nil p => exact .nil p
    | cons m p q x rest hstep _ ih =>
      cases x with
      | none => exact .cons (x := none) hstep ih
      | some c => exact .cons (x := some c) hstep ih
  · intro hpath
    induction hpath with
    | nil p => exact ⟨[], rfl, .nil p⟩
    | @cons p m q x word hstep _ ih =>
      obtain ⟨rest, hrest, hpath⟩ := ih
      refine ⟨x :: rest, ?_, .cons m p q x rest hstep hpath⟩
      cases x with
      | none => exact (List.reduceOption_cons_of_none rest).trans hrest
      | some c => exact (List.reduceOption_cons_of_some c rest).trans (congrArg (c :: ·) hrest)

end Paths

end WebKit.GraphInsertion
