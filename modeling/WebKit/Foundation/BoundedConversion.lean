import Mathlib

/-!
Conversion of a sequence into a target with limited room. The items at the front of the source are
read one after the other; each is written as a whole if there is room for it, and otherwise the
conversion stops before it. A conversion that has stopped can be taken up again where it stopped,
and then gives what one conversion with the room of both gives.
-/

namespace WebKit.BoundedConversion

open List

variable {Source Target Result : Type*}

/-- What is read at the front of the source: the conversion stops, if there is room as needed, or an
item is read that takes more units behind the first one. -/
inductive Next (Target Result : Type*) where
  | stop (result : Result) (needed : ℕ)
  | emit (more : ℕ) (units : List Target)

@[ext]
structure Outcome (Source Target Result : Type*) where
  result : Result
  source : List Source
  target : List Target

def Outcome.prepend (after : Outcome Source Target Result) (units : List Target) :
    Outcome Source Target Result :=
  ⟨after.result, after.source, units ++ after.target⟩

variable (next : Source → List Source → Next Target Result) (ok full : Result)

def convert (source : List Source) (room : ℕ) : Outcome Source Target Result :=
  match source with
  | [] => ⟨ok, [], []⟩
  | first :: rest =>
    match next first rest with
    | .stop result needed => ⟨if room < needed then full else result, first :: rest, []⟩
    | .emit more units =>
      if room < units.length then ⟨full, first :: rest, []⟩
      else
        let after := convert (rest.drop more) (room - units.length)
        ⟨after.result, after.source, units ++ after.target⟩
termination_by source.length
decreasing_by
  rw [length_drop, length_cons]
  omega

variable {next ok full} {first : Source} {rest : List Source} {room : ℕ}

theorem convert_nil : convert next ok full [] room = ⟨ok, [], []⟩ := by rw [convert]

theorem convert_stop {result : Result} {needed : ℕ} (hnext : next first rest = .stop result needed) :
    convert next ok full (first :: rest) room =
      ⟨if room < needed then full else result, first :: rest, []⟩ := by
  rw [convert]
  simp only [hnext]

theorem convert_emit {more : ℕ} {units : List Target} (hnext : next first rest = .emit more units) :
    convert next ok full (first :: rest) room =
      if room < units.length then ⟨full, first :: rest, []⟩
      else (convert next ok full (rest.drop more) (room - units.length)).prepend units := by
  rw [convert]
  simp only [hnext]
  rfl

theorem convert_emit_of_le {more : ℕ} {units : List Target}
    (hnext : next first rest = .emit more units) (hroom : units.length ≤ room) :
    convert next ok full (first :: rest) room =
      (convert next ok full (rest.drop more) (room - units.length)).prepend units := by
  rw [convert_emit hnext, if_neg (Nat.not_lt.mpr hroom)]

/-- Taking a conversion up again gives what one conversion with the room of both gives. -/
theorem convert_resume (source : List Source) (room further : ℕ) :
    convert next ok full source ((convert next ok full source room).target.length + further) =
      (convert next ok full (convert next ok full source room).source further).prepend
        (convert next ok full source room).target := by
  induction source, room using convert.induct next ok full with
  | case1 room =>
    rw [show convert next ok full [] room = ⟨ok, [], []⟩ from convert_nil, length_nil, zero_add]
    rfl
  | case2 room first rest result needed hnext =>
    rw [show convert next ok full (first :: rest) room = ⟨_, first :: rest, []⟩ from
      convert_stop hnext, length_nil, zero_add]
    rfl
  | case3 room first rest more units hnext hroom =>
    rw [show convert next ok full (first :: rest) room = ⟨full, first :: rest, []⟩ from
      (convert_emit hnext).trans (if_pos hroom), length_nil, zero_add]
    rfl
  | case4 room first rest more units hnext hroom ih =>
    rw [convert_emit_of_le hnext (not_lt.mp hroom)]
    dsimp only [Outcome.prepend]
    rw [length_append, add_assoc, convert_emit_of_le hnext (Nat.le_add_right _ _),
      Nat.add_sub_cancel_left, ih, append_assoc]
    rfl

/-- What holds of a source with nothing read and is kept by reading an item holds of a source, what
is left of it and what was written. -/
theorem convert_invariant {Holds : List Source → List Source → List Target → Prop}
    (hstop : ∀ source, Holds source source [])
    (hemit : ∀ first rest more units left target, next first rest = .emit more units →
      Holds (rest.drop more) left target → Holds (first :: rest) left (units ++ target))
    (source : List Source) (room : ℕ) :
    Holds source (convert next ok full source room).source
      (convert next ok full source room).target := by
  induction source, room using convert.induct next ok full with
  | case1 room =>
    rw [convert_nil]
    exact hstop []
  | case2 room first rest result needed hnext =>
    rw [convert_stop hnext]
    exact hstop _
  | case3 room first rest more units hnext hroom =>
    rw [convert_emit hnext, if_pos hroom]
    exact hstop _
  | case4 room first rest more units hnext hroom ih =>
    rw [convert_emit_of_le hnext (not_lt.mp hroom)]
    exact hemit _ _ _ _ _ _ hnext ih

def Local (next : Source → List Source → Next Target Result) : Prop :=
  ∀ first rest more units, next first rest = .emit more units →
    more ≤ rest.length ∧ ∀ other, next first (rest.take more ++ other) = .emit more units

def ConsumesWhole (next : Source → List Source → Next Target Result) (ok full : Result)
    (source left : List Source) (target : List Target) : Prop :=
  ∃ consumed, source = consumed ++ left ∧
    convert next ok full consumed target.length = ⟨ok, [], target⟩

theorem convert_consumesWhole (hlocal : Local next) (source : List Source) (room : ℕ) :
    ConsumesWhole next ok full source (convert next ok full source room).source
      (convert next ok full source room).target := by
  refine convert_invariant ?_ ?_ source room
  · intro source
    exact ⟨[], rfl, convert_nil⟩
  · intro first rest more units left target hnext ⟨consumed, hsrc, hconsumed⟩
    obtain ⟨hmore, hoth⟩ := hlocal first rest more units hnext
    refine ⟨first :: (rest.take more ++ consumed), ?_, ?_⟩
    · rw [cons_append, append_assoc, ← hsrc, take_append_drop]
    · have hdrop : (rest.take more ++ consumed).drop more = consumed := by
        apply drop_left'
        rw [length_take]
        omega
      rw [convert_emit_of_le (hoth consumed) (by rw [length_append]; omega), hdrop,
        length_append, Nat.add_sub_cancel_left, hconsumed]
      rfl

def LeftBetween (Parted : Source → Source → Prop) (source left : List Source) : Prop :=
  ∃ consumed, source = consumed ++ left ∧
    ∀ last ∈ consumed.getLast?, ∀ head ∈ left.head?, Parted last head

theorem convert_leftBetween {Parted : Source → Source → Prop}
    (hparted : ∀ first rest more units, next first rest = .emit more units →
      ∀ last ∈ (first :: rest.take more).getLast?, ∀ head ∈ (rest.drop more).head?,
        Parted last head) (source : List Source) (room : ℕ) :
    LeftBetween Parted source (convert next ok full source room).source := by
  refine @convert_invariant _ _ _ next ok full (fun source left _ => LeftBetween Parted source left)
    ?_ ?_ source room
  · intro source
    exact ⟨[], rfl, fun last hlast => absurd hlast (by simp)⟩
  · intro first rest more units left target hnext ⟨consumed, hsrc, hbetween⟩
    refine ⟨first :: rest.take more ++ consumed, ?_, ?_⟩
    · rw [cons_append, cons_append, append_assoc, ← hsrc, take_append_drop]
    · intro last hlast head hhead
      cases consumed with
      | nil =>
        rw [append_nil] at hlast
        apply hparted first rest more units hnext last hlast head
        rw [hsrc, nil_append]
        exact hhead
      | cons unit units =>
        apply hbetween last _ head hhead
        rw [List.getLast?_append_of_ne_nil _ (cons_ne_nil _ _)] at hlast
        exact hlast

variable {source : List Source}

/-- Where the room was sufficient, more room changes nothing. -/
theorem convert_of_le {larger : ℕ} (hfull : (convert next ok full source room).result ≠ full)
    (hroom : room ≤ larger) :
    convert next ok full source larger = convert next ok full source room := by
  induction source, room using convert.induct next ok full generalizing larger with
  | case1 room => rw [convert_nil, convert_nil]
  | case2 room first rest result needed hnext =>
    rw [convert_stop hnext] at hfull
    have hneeded : ¬ room < needed := fun h => hfull (if_pos h)
    rw [convert_stop hnext, convert_stop hnext, if_neg hneeded, if_neg (by omega)]
  | case3 room first rest more units hnext hunits =>
    rw [convert_emit hnext, if_pos hunits] at hfull
    exact absurd rfl hfull
  | case4 room first rest more units hnext hunits ih =>
    rw [convert_emit_of_le hnext (not_lt.mp hunits)] at hfull
    rw [convert_emit_of_le hnext (by omega), convert_emit_of_le hnext (by omega),
      ih hfull (by omega)]

/-- For every source there is sufficient room. -/
theorem exists_room (hstop : ∀ first rest result needed,
    next first rest = .stop result needed → result ≠ full) (hok : ok ≠ full) (source : List Source) :
    ∃ large, (convert next ok full source large).result ≠ full := by
  induction hlen : source.length using Nat.strong_induction_on generalizing source with
  | h n ih =>
    cases source with
    | nil => exact ⟨0, by rw [convert_nil]; exact hok⟩
    | cons first rest =>
      cases hnext : next first rest with
      | stop result needed =>
        refine ⟨needed, ?_⟩
        rw [convert_stop hnext, if_neg (lt_irrefl _)]
        exact hstop first rest result needed hnext
      | emit more units =>
        obtain ⟨large, hlarge⟩ := ih (rest.drop more).length
          (by rw [← hlen, length_drop, length_cons]; omega) (rest.drop more) rfl
        refine ⟨units.length + large, ?_⟩
        rw [convert_emit_of_le hnext (Nat.le_add_right _ _), Nat.add_sub_cancel_left]
        exact hlarge

/-- A conversion that succeeds has consumed the source. -/
theorem source_eq_nil
    (hstop : ∀ first rest result needed, next first rest = .stop result needed → result ≠ ok)
    (hfull : full ≠ ok) (hok : (convert next ok full source room).result = ok) :
    (convert next ok full source room).source = [] := by
  induction source, room using convert.induct next ok full with
  | case1 room => rw [convert_nil]
  | case2 room first rest result needed hnext =>
    rw [convert_stop hnext] at hok
    split_ifs at hok
    · exact absurd hok hfull
    · exact absurd hok (hstop first rest result needed hnext)
  | case3 room first rest more units hnext hroom =>
    rw [convert_emit hnext, if_pos hroom] at hok
    exact absurd hok hfull
  | case4 room first rest more units hnext hroom ih =>
    rw [convert_emit_of_le hnext (not_lt.mp hroom)] at hok ⊢
    exact ih hok

def resume [DecidableEq Result] (call : List Source → ℕ → Outcome Source Target Result)
    (full : Result) (source : List Source) : List ℕ → Outcome Source Target Result
  | [] => ⟨full, source, []⟩
  | room :: rooms =>
    let first := call source room
    if first.result = full then
      let after := resume call full first.source rooms
      ⟨after.result, after.source, first.target ++ after.target⟩
    else first

/-- Several targets give what one of some room gives, if there is any target at all. -/
theorem exists_resume_eq [DecidableEq Result] (source : List Source) (room : ℕ) (rooms : List ℕ) :
    ∃ large, resume (convert next ok full) full source (room :: rooms) =
      convert next ok full source large := by
  induction rooms generalizing source room with
  | nil =>
    refine ⟨room, ?_⟩
    rw [resume]
    split_ifs with hfull
    · rw [resume]
      exact Outcome.ext hfull.symm rfl (append_nil _)
    · rfl
  | cons second rooms ih =>
    obtain ⟨large, hlarge⟩ := ih (convert next ok full source room).source second
    rw [resume]
    split_ifs with hfull
    · exact ⟨_, by rw [hlarge]; exact (convert_resume source room large).symm⟩
    · exact ⟨room, rfl⟩

/-- Some room suffices, and several targets that suffice together give what one gives that does. -/
structure Resumes [DecidableEq Result] (call : List Source → ℕ → Outcome Source Target Result)
    (full : Result) (source : List Source) : Prop where
  sufficient : ∃ large, (call source large).result ≠ full
  same : ∀ rooms large, (resume call full source rooms).result ≠ full →
    (call source large).result ≠ full → resume call full source rooms = call source large

theorem convert_resumes [DecidableEq Result] (hstop : ∀ first rest result needed,
    next first rest = .stop result needed → result ≠ full) (hok : ok ≠ full) (source : List Source) :
    Resumes (convert next ok full) full source := by
  refine ⟨exists_room hstop hok source, ?_⟩
  intro rooms large hrooms hlarge
  cases rooms with
  | nil => exact absurd rfl hrooms
  | cons room rooms =>
    obtain ⟨other, hoth⟩ : ∃ other, resume (convert next ok full) full source (room :: rooms) =
      convert next ok full source other := exists_resume_eq source room rooms
    rw [hoth] at hrooms ⊢
    rcases le_total other large with hle | hle
    · exact (convert_of_le hrooms hle).symm
    · exact convert_of_le hlarge hle

def Codes {Item : Type*} (next : Source → List Source → Next Target Result)
    (code : Item → List Source) (out : Item → List Target) : Prop :=
  ∀ item rest, ∃ first tail, code item = first :: tail ∧
    next first (tail ++ rest) = .emit tail.length (out item)

section Codes

variable {Item : Type*} {code : Item → List Source} {out : Item → List Target}

theorem convert_codes (hcodes : Codes next code out) (item : Item) (rest : List Source) :
    convert next ok full (code item ++ rest) room =
      if room < (out item).length then ⟨full, code item ++ rest, []⟩
      else (convert next ok full rest (room - (out item).length)).prepend (out item) := by
  obtain ⟨first, tail, hcode, hnext⟩ := hcodes item rest
  rw [hcode, cons_append, convert_emit hnext, drop_left]

theorem convert_flatMap (hcodes : Codes next code out) (items : List Item)
    (hroom : (items.flatMap out).length ≤ room) :
    convert next ok full (items.flatMap code) room = ⟨ok, [], items.flatMap out⟩ := by
  induction items generalizing room with
  | nil => exact convert_nil
  | cons item items ih =>
    rw [flatMap_cons, length_append] at hroom
    rw [flatMap_cons, flatMap_cons, convert_codes hcodes, if_neg (by omega), ih (by omega)]
    rfl

end Codes

end WebKit.BoundedConversion
