import Mathlib

/-!
Lists of the markers of a text, and how a marker is inserted into one. A list means the offsets that
its markers mark. A marker of the same type that begins in front of the new one, or with it, is
replaced by it, and what it marks behind the end of the new marker is lost.
-/

namespace WebKit.DOM

open List

inductive MarkerType where
  | spelling | grammar | textMatch | replacement | correctionIndicator | rejectedCorrection
  | autocorrected | spellCheckingExemption | deletedAutocorrection | dictationAlternatives
  | telephoneNumber | dictationPhraseWithAlternatives | dictationResult | acceptedCandidate
  deriving DecidableEq

structure DocumentMarker where
  type : MarkerType
  startOffset : UInt32
  endOffset : UInt32
  deriving DecidableEq

abbrev MarkerList := List DocumentMarker

namespace DocumentMarker

variable (toInsert : DocumentMarker)

/-- The first loop of `addMarker`: the markers it passes, the new marker, and those left. -/
def absorbBefore : MarkerList → MarkerList × DocumentMarker × MarkerList
  | [] => ([], toInsert, [])
  | marker :: markers =>
    if marker.startOffset > toInsert.startOffset then ([], toInsert, marker :: markers)
    else if marker.type = toInsert.type ∧ marker.endOffset ≥ toInsert.startOffset then
      ([], { toInsert with startOffset := marker.startOffset }, markers)
    else
      let later := absorbBefore markers
      (marker :: later.1, later.2)

/-- The second loop of `addMarker`. -/
def absorbAfter : MarkerList → DocumentMarker × MarkerList
  | [] => (toInsert, [])
  | marker :: markers =>
    if marker.startOffset > toInsert.endOffset then (toInsert, marker :: markers)
    else if marker.type = toInsert.type then
      if toInsert.endOffset ≤ marker.endOffset then
        ({ toInsert with endOffset := marker.endOffset }, markers)
      else absorbAfter markers
    else
      let later := absorbAfter markers
      (later.1, marker :: later.2)

/-- On iOS the markers of dictation are not merged. -/
abbrev Merges (ios : Bool) (marker : DocumentMarker) : Prop :=
  ¬(ios ∧ (marker.type = .dictationPhraseWithAlternatives ∨ marker.type = .dictationResult))

def insertInto (ios : Bool) (newMarker : DocumentMarker) (list : MarkerList) : MarkerList :=
  if ios ∧ (newMarker.type = .dictationPhraseWithAlternatives ∨
      newMarker.type = .dictationResult) then
    list.takeWhile (·.startOffset ≤ newMarker.startOffset) ++
      newMarker :: list.dropWhile (·.startOffset ≤ newMarker.startOffset)
  else
    let before := newMarker.absorbBefore list
    let after := before.2.1.absorbAfter before.2.2
    before.1 ++ after.1 :: after.2

def Covers (marker : DocumentMarker) (type : MarkerType) (offset : ℤ) : Prop :=
  marker.type = type ∧ marker.startOffset.toNat ≤ offset ∧ offset < marker.endOffset.toNat

end DocumentMarker

/-- The offsets that are marked, for each type. -/
abbrev Marking := MarkerType → ℤ → Prop

def Marks (list : MarkerList) : Marking := fun type offset =>
  ∃ marker ∈ list, marker.Covers type offset

/-- The markers of a list are not empty, in the order of their starts, and those of a type that is
merged are apart from each other. -/
structure Normal (ios : Bool) (list : MarkerList) : Prop where
  nonempty : ∀ marker ∈ list, marker.startOffset < marker.endOffset
  sorted : list.Pairwise fun first second => first.startOffset ≤ second.startOffset
  apart : list.Pairwise fun first second => first.type = second.type → first.Merges ios →
    first.endOffset < second.startOffset

namespace DocumentMarker

variable (ios : Bool) (marking : Marking) (marker : DocumentMarker)

/-- Everything from the start of the marker up to an offset behind it is marked. -/
def RunsOn (offset : ℤ) : Prop :=
  marker.endOffset.toNat ≤ offset ∧
    ∀ between : ℤ, marker.startOffset.toNat ≤ between → between ≤ offset → marking marker.type between

/-- What a marker leaves of a marking: the marks that run on behind it are lost. -/
def overlay : Marking := fun type offset =>
  marking type offset ∧ ¬(marker.Merges ios ∧ type = marker.type ∧ marker.RunsOn marking offset) ∨
    marker.Covers type offset

end DocumentMarker

theorem Normal.sublist {ios : Bool} {list list' : MarkerList} (h : Normal ios list)
    (hsub : list'.Sublist list) : Normal ios list' :=
  ⟨fun marker hmem => h.nonempty marker (hsub.subset hmem), h.sorted.sublist hsub,
    h.apart.sublist hsub⟩

section Marks

variable {list more : MarkerList} {marker : DocumentMarker} {type : MarkerType} {offset : ℤ}

@[simp]
theorem marks_nil : ¬Marks [] type offset := by
  rintro ⟨marker, hmem, -⟩
  exact not_mem_nil hmem

@[simp]
theorem marks_cons : Marks (marker :: list) type offset ↔
    marker.Covers type offset ∨ Marks list type offset := by
  simp only [Marks, mem_cons, exists_eq_or_imp]

@[simp]
theorem marks_append : Marks (list ++ more) type offset ↔
    Marks list type offset ∨ Marks more type offset := by
  simp only [Marks, mem_append, or_and_right, exists_or]

end Marks

namespace DocumentMarker

variable {ios : Bool} {marker : DocumentMarker} {list post : MarkerList}

/-- Either no marker is absorbed in front, or one that reaches the start of the new marker. -/
theorem absorbBefore_cases (marker : DocumentMarker) (list : MarkerList) :
    (∃ pre post, marker.absorbBefore list = (pre, marker, post) ∧ list = pre ++ post ∧
      (∀ other ∈ pre, other.startOffset ≤ marker.startOffset ∧
        (other.type = marker.type → other.endOffset < marker.startOffset)) ∧
      ∀ other ∈ post.head?, marker.startOffset < other.startOffset) ∨
    ∃ pre absorbed post,
      marker.absorbBefore list = (pre, { marker with startOffset := absorbed.startOffset }, post) ∧
      list = pre ++ absorbed :: post ∧
      (∀ other ∈ pre, other.startOffset ≤ marker.startOffset ∧
        (other.type = marker.type → other.endOffset < marker.startOffset)) ∧
      absorbed.type = marker.type ∧ absorbed.startOffset ≤ marker.startOffset ∧
      marker.startOffset ≤ absorbed.endOffset := by
  induction list with
  | nil => exact .inl ⟨[], [], rfl, rfl, by simp, by simp⟩
  | cons first list ih =>
    rw [absorbBefore]
    by_cases hbehind : first.startOffset > marker.startOffset
    · rw [if_pos hbehind]
      exact .inl ⟨[], first :: list, rfl, rfl, by simp, by simpa using hbehind⟩
    have hle := UInt32.not_lt.mp hbehind
    by_cases habsorb : first.type = marker.type ∧ first.endOffset ≥ marker.startOffset
    · rw [if_neg hbehind, if_pos habsorb]
      exact .inr ⟨[], first, list, rfl, rfl, by simp, habsorb.1, hle, habsorb.2⟩
    have hfirst : first.startOffset ≤ marker.startOffset ∧
        (first.type = marker.type → first.endOffset < marker.startOffset) :=
      ⟨hle, fun htype => UInt32.not_le.mp fun hge => habsorb ⟨htype, hge⟩⟩
    rw [if_neg hbehind, if_neg habsorb]
    rcases ih with ⟨pre, post, heq, rfl, hpre, hpost⟩ | ⟨pre, absorbed, post, heq, rfl, hpre, habs⟩
    · exact .inl ⟨first :: pre, post, by rw [heq], rfl, forall_mem_cons.mpr ⟨hfirst, hpre⟩, hpost⟩
    · exact .inr ⟨first :: pre, absorbed, post, by rw [heq], rfl,
        forall_mem_cons.mpr ⟨hfirst, hpre⟩, habs⟩

/-- What the second loop makes of the new marker and the markers behind it. -/
structure AbsorbsAfter (marker : DocumentMarker) (post : MarkerList) (result : DocumentMarker)
    (rest : MarkerList) : Prop where
  type : result.type = marker.type
  start : result.startOffset = marker.startOffset
  stop : marker.endOffset ≤ result.endOffset
  sublist : rest.Sublist post
  apart : ∀ other ∈ rest, other.type = marker.type → result.endOffset < other.startOffset
  marks : ∀ type offset, result.Covers type offset ∨ Marks rest type offset ↔
    marker.Covers type offset ∨ Marks post type offset

theorem absorbsAfter_absorbAfter (hmerges : marker.Merges ios) (hpost : Normal ios post)
    (hbehind : ∀ other ∈ post, other.type = marker.type → marker.startOffset ≤ other.startOffset) :
    AbsorbsAfter marker post (marker.absorbAfter post).1 (marker.absorbAfter post).2 := by
  induction post with
  | nil => exact ⟨rfl, rfl, UInt32.le_refl _, .refl _, by simp [absorbAfter], fun _ _ => .rfl⟩
  | cons first post ih =>
    obtain ⟨hfirst, hrest⟩ := forall_mem_cons.mp hbehind
    have hsorted := (pairwise_cons.mp hpost.sorted).1
    have hapart := (pairwise_cons.mp hpost.apart).1
    have ih := ih (hpost.sublist (sublist_cons_self _ _)) hrest
    rw [absorbAfter]
    by_cases hpast : first.startOffset > marker.endOffset
    · rw [if_pos hpast]
      refine ⟨rfl, rfl, UInt32.le_refl _, .refl _, fun other hmem _ => ?_, fun _ _ => .rfl⟩
      rcases mem_cons.mp hmem with rfl | hmem
      · exact hpast
      · exact UInt32.lt_of_lt_of_le hpast (hsorted other hmem)
    have hreach := UInt32.not_lt.mp hpast
    rw [if_neg hpast]
    by_cases htype : first.type = marker.type
    · have hstart := hfirst htype
      rw [if_pos htype]
      by_cases hstop : marker.endOffset ≤ first.endOffset
      · rw [if_pos hstop]
        refine ⟨rfl, rfl, hstop, sublist_cons_self _ _, fun other hmem hsame => ?_,
          fun type offset => ?_⟩
        · refine hapart other hmem (htype.trans hsame.symm) ?_
          rw [Merges, htype]
          exact hmerges
        · rw [marks_cons, ← or_assoc]
          refine or_congr_left ?_
          simp only [UInt32.le_iff_toNat_le] at hstart hreach hstop
          simp only [Covers, htype, ← and_or_left]
          exact and_congr_right fun _ => by omega
      · rw [if_neg hstop]
        refine ⟨ih.type, ih.start, ih.stop, ih.sublist.cons _, ih.apart, fun type offset => ?_⟩
        rw [ih.marks, marks_cons, ← or_assoc]
        refine or_congr_left ?_
        simp only [UInt32.le_iff_toNat_le] at hstart hreach hstop
        simp only [Covers, htype, ← and_or_left]
        exact and_congr_right fun _ => by omega
    · rw [if_neg htype]
      refine ⟨ih.type, ih.start, ih.stop, ih.sublist.cons_cons _, fun other hmem hsame => ?_,
        fun type offset => ?_⟩
      · rcases mem_cons.mp hmem with rfl | hmem
        · exact absurd hsame htype
        · exact ih.apart other hmem hsame
      · rw [marks_cons, marks_cons, or_left_comm, ih.marks, or_left_comm]

/-- A marker that has absorbed those it meets stands between the others. -/
theorem AbsorbsAfter.normal {pre rest : MarkerList} {result : DocumentMarker}
    (h : AbsorbsAfter marker post result rest) (hmarker : marker.startOffset < marker.endOffset)
    (hnormal : Normal ios (pre ++ post))
    (hpre : ∀ other ∈ pre, other.startOffset ≤ marker.startOffset ∧
      (other.type = marker.type → other.endOffset < marker.startOffset))
    (hpost : ∀ other ∈ post, marker.startOffset ≤ other.startOffset) :
    Normal ios (pre ++ result :: rest) := by
  obtain ⟨hsortedPre, hsortedPost, hsorted⟩ := pairwise_append.mp hnormal.sorted
  obtain ⟨hapartPre, hapartPost, hapart⟩ := pairwise_append.mp hnormal.apart
  refine ⟨fun other hmem => ?_, pairwise_append.mpr ⟨hsortedPre, pairwise_cons.mpr
      ⟨fun other hmem => h.start ▸ hpost other (h.sublist.subset hmem), hsortedPost.sublist h.sublist⟩,
      fun first hfirst second hmem => ?_⟩,
    pairwise_append.mpr ⟨hapartPre, pairwise_cons.mpr
      ⟨fun other hmem htype _ => h.apart other hmem (htype.symm.trans h.type),
        hapartPost.sublist h.sublist⟩,
      fun first hfirst second hmem htype => ?_⟩⟩
  · rcases mem_append.mp hmem with hmem | hmem
    · exact hnormal.nonempty other (mem_append_left _ hmem)
    rcases mem_cons.mp hmem with rfl | hmem
    · rw [h.start]
      exact UInt32.lt_of_lt_of_le hmarker h.stop
    · exact hnormal.nonempty other (mem_append_right _ (h.sublist.subset hmem))
  · rcases mem_cons.mp hmem with rfl | hmem
    · exact h.start ▸ (hpre first hfirst).1
    · exact hsorted first hfirst second (h.sublist.subset hmem)
  · rcases mem_cons.mp hmem with rfl | hmem
    · intro _
      exact h.start ▸ (hpre first hfirst).2 (htype.trans h.type)
    · exact hapart first hfirst second (h.sublist.subset hmem) htype

section Marks

variable {pre : MarkerList} {absorbed : DocumentMarker} {type : MarkerType} {offset : ℤ}

theorem lt_of_marks_before {stop : UInt32}
    (hpre : ∀ other ∈ pre, other.type = type → other.endOffset < stop)
    (hmark : Marks pre type offset) : offset < stop.toNat := by
  obtain ⟨other, hmem, hsame, -, hlast⟩ := hmark
  have hlt := hpre other hmem hsame
  rw [UInt32.lt_iff_toNat_lt] at hlt
  omega

theorem lt_of_marks_after {start : UInt32}
    (hpost : ∀ other ∈ post, other.type = type → start < other.startOffset)
    (hmark : Marks post type offset) : start.toNat < offset := by
  obtain ⟨other, hmem, hsame, hfirst, -⟩ := hmark
  have hlt := hpost other hmem hsame
  rw [UInt32.lt_iff_toNat_lt] at hlt
  omega

/-- Where the start of the marker is not marked, nothing runs on behind it. -/
theorem overlay_iff_of_not_marks (hmarker : marker.startOffset < marker.endOffset)
    (hnot : ¬Marks list marker.type marker.startOffset.toNat) :
    marker.overlay ios (Marks list) type offset ↔
      Marks list type offset ∨ marker.Covers type offset := by
  have hkeeps : ¬(marker.Merges ios ∧ type = marker.type ∧ marker.RunsOn (Marks list) offset) := by
    rintro ⟨-, -, hend, hruns⟩
    rw [UInt32.lt_iff_toNat_lt] at hmarker
    exact hnot (hruns _ le_rfl (by omega))
  rw [overlay, and_iff_left hkeeps]

variable (htype : absorbed.type = marker.type) (hstart : absorbed.startOffset ≤ marker.startOffset)
  (hreach : marker.startOffset ≤ absorbed.endOffset)
  (hpre : ∀ other ∈ pre, other.type = marker.type → other.endOffset < marker.startOffset)
  (hpost : ∀ other ∈ post, other.type = marker.type → absorbed.endOffset < other.startOffset)

include htype hstart hreach hpre hpost

/-- The marks run on behind the marker as far as a marker that reaches its start. -/
theorem runsOn_iff_of_reaches : marker.RunsOn (Marks (pre ++ absorbed :: post)) offset ↔
    marker.endOffset.toNat ≤ offset ∧ offset < absorbed.endOffset.toNat := by
  rw [UInt32.le_iff_toNat_le] at hstart hreach
  refine and_congr_right fun hend => ⟨fun h => ?_, fun hlt between hfirst hlast => ?_⟩
  · by_contra hge
    have hmark := h absorbed.endOffset.toNat (by omega) (by omega)
    rw [marks_append, marks_cons] at hmark
    rcases hmark with hmark | hmark | hmark
    · have hlt := lt_of_marks_before hpre hmark
      omega
    · have hlt := hmark.2.2
      omega
    · have hlt := lt_of_marks_after hpost hmark
      omega
  · exact marks_append.mpr (.inr (marks_cons.mpr (.inl ⟨htype, by omega, by omega⟩)))

/-- The marker takes the place of the one that reaches its start, and begins where that began. -/
theorem overlay_iff_of_reaches (hmarker : marker.startOffset < marker.endOffset)
    (hmerges : marker.Merges ios) :
    marker.overlay ios (Marks (pre ++ absorbed :: post)) type offset ↔ Marks pre type offset ∨
      Covers { marker with startOffset := absorbed.startOffset } type offset ∨
        Marks post type offset := by
  rw [overlay, marks_append, marks_cons]
  by_cases hsame : type = marker.type
  · subst hsame
    rw [and_iff_right hmerges, and_iff_right rfl,
      runsOn_iff_of_reaches htype hstart hreach hpre hpost]
    have hleft := @lt_of_marks_before pre marker.type offset marker.startOffset hpre
    have hright := @lt_of_marks_after post marker.type offset absorbed.endOffset hpost
    generalize Marks pre marker.type offset = inPre at hleft ⊢
    generalize Marks post marker.type offset = inPost at hright ⊢
    rw [UInt32.le_iff_toNat_le] at hstart hreach
    rw [UInt32.lt_iff_toNat_lt] at hmarker
    simp only [Covers, htype, true_and]
    grind
  · have hother : ∀ {first last}, ¬Covers ⟨marker.type, first, last⟩ type offset :=
      fun hcovers => hsame hcovers.1.symm
    have habs : ¬absorbed.Covers type offset := fun hcovers => hsame (hcovers.1.symm.trans htype)
    have hmark : ¬marker.Covers type offset := hother
    simp only [habs, hmark, hother, hsame, false_and, and_false, not_false_iff, and_true, or_false,
      false_or]

end Marks

section Insert

variable (hmarker : marker.startOffset < marker.endOffset) (hlist : Normal ios list)

include hmarker hlist

/-- What inserting a marker that is merged makes of a list. -/
theorem insertInto_of_merges (hmerges : marker.Merges ios) :
    Normal ios (marker.insertInto ios list) ∧
      ∀ type offset, Marks (marker.insertInto ios list) type offset ↔
        marker.overlay ios (Marks list) type offset := by
  rw [insertInto, if_neg hmerges]
  dsimp only
  rcases marker.absorbBefore_cases list with ⟨pre, post, heq, rfl, hpre, hhead⟩ |
    ⟨pre, absorbed, post, heq, rfl, hpre, htype, hstart, hreach⟩
  · have hpost : ∀ other ∈ post, marker.startOffset < other.startOffset := by
      intro other hmem
      obtain ⟨first, rest, rfl⟩ := exists_cons_of_ne_nil (ne_nil_of_mem hmem)
      have hsorted := (pairwise_cons.mp (pairwise_append.mp hlist.sorted).2.1).1
      rcases mem_cons.mp hmem with rfl | hmem
      · exact hhead other rfl
      · exact UInt32.lt_of_lt_of_le (hhead first rfl) (hsorted other hmem)
    have hafter := absorbsAfter_absorbAfter hmerges (hlist.sublist (sublist_append_right pre post))
      fun other hmem _ => UInt32.le_of_lt (hpost other hmem)
    have hnot : ¬Marks (pre ++ post) marker.type marker.startOffset.toNat := by
      rw [marks_append]
      rintro (hmark | hmark)
      · exact lt_irrefl _ (lt_of_marks_before (fun other hmem => (hpre other hmem).2) hmark)
      · exact lt_irrefl _ (lt_of_marks_after (fun other hmem _ => hpost other hmem) hmark)
    rw [heq]
    refine ⟨hafter.normal hmarker hlist hpre fun other hmem => UInt32.le_of_lt (hpost other hmem),
      fun type offset => ?_⟩
    rw [overlay_iff_of_not_marks hmarker hnot, marks_append, marks_cons, hafter.marks, marks_append,
      or_left_comm, or_comm]
  · set grown : DocumentMarker := { marker with startOffset := absorbed.startOffset }
    obtain ⟨-, hsortedRest, hsorted⟩ := pairwise_append.mp hlist.sorted
    obtain ⟨-, hapartRest, hapart⟩ := pairwise_append.mp hlist.apart
    have hmergesOf : ∀ other : DocumentMarker, other.type = marker.type → other.Merges ios := by
      intro other hsame
      rw [Merges, hsame]
      exact hmerges
    have hpostApart : ∀ other ∈ post, other.type = marker.type →
        absorbed.endOffset < other.startOffset := fun other hmem hsame =>
      (pairwise_cons.mp hapartRest).1 other hmem (htype.trans hsame.symm) (hmergesOf absorbed htype)
    have hpreApart : ∀ other ∈ pre, other.type = marker.type →
        other.endOffset < absorbed.startOffset := fun other hmem hsame =>
      hapart other hmem absorbed mem_cons_self (hsame.trans htype.symm) (hmergesOf other hsame)
    have hpost : ∀ other ∈ post, grown.startOffset ≤ other.startOffset :=
      (pairwise_cons.mp hsortedRest).1
    have hsub : Normal ios (pre ++ post) :=
      hlist.sublist ((Sublist.refl pre).append (sublist_cons_self _ _))
    have hafter := absorbsAfter_absorbAfter (show grown.Merges ios from hmerges)
      (hsub.sublist (sublist_append_right pre post)) fun other hmem _ => hpost other hmem
    rw [heq]
    refine ⟨hafter.normal (UInt32.lt_of_le_of_lt hstart hmarker) hsub (fun other hmem =>
      ⟨hsorted other hmem absorbed mem_cons_self, hpreApart other hmem⟩) hpost, fun type offset => ?_⟩
    rw [overlay_iff_of_reaches htype hstart hreach (fun other hmem => (hpre other hmem).2)
      hpostApart hmarker hmerges, marks_append, marks_cons, hafter.marks]

/-- A marker that is not merged is added to the list. -/
theorem insertInto_of_not_merges (hmerges : ¬marker.Merges ios) :
    Normal ios (marker.insertInto ios list) ∧
      ∀ type offset, Marks (marker.insertInto ios list) type offset ↔
        marker.overlay ios (Marks list) type offset := by
  rw [insertInto, if_pos (not_not.mp hmerges)]
  set front := list.takeWhile (·.startOffset ≤ marker.startOffset) with hfront
  set back := list.dropWhile (·.startOffset ≤ marker.startOffset) with hback
  have hsplit : list = front ++ back := takeWhile_append_dropWhile.symm
  have hfrontLe : ∀ other ∈ front, other.startOffset ≤ marker.startOffset := by
    intro other hmem
    rw [hfront] at hmem
    have hle := mem_takeWhile_imp hmem
    exact of_decide_eq_true hle
  rw [hsplit] at hlist
  obtain ⟨hsortedFront, hsortedBack, hsorted⟩ := pairwise_append.mp hlist.sorted
  obtain ⟨hapartFront, hapartBack, hapart⟩ := pairwise_append.mp hlist.apart
  have hbackLe : ∀ other ∈ back, marker.startOffset ≤ other.startOffset := by
    intro other hmem
    obtain ⟨first, rest, hcons⟩ := exists_cons_of_ne_nil (ne_nil_of_mem hmem)
    have hfirst : marker.startOffset ≤ first.startOffset := by
      have hne : list.dropWhile (·.startOffset ≤ marker.startOffset) ≠ [] :=
        hback ▸ hcons ▸ cons_ne_nil _ _
      have hnot := head_dropWhile_not _ hne
      simp only [← hback, hcons, head_cons, decide_eq_false_iff_not] at hnot
      exact UInt32.le_of_lt (UInt32.not_le.mp hnot)
    rw [hcons] at hmem hsortedBack
    rcases mem_cons.mp hmem with rfl | hmem
    · exact hfirst
    · exact UInt32.le_trans hfirst ((pairwise_cons.mp hsortedBack).1 other hmem)
  refine ⟨⟨fun other hmem => ?_, pairwise_append.mpr ⟨hsortedFront,
      pairwise_cons.mpr ⟨hbackLe, hsortedBack⟩, fun first hfirst second hmem => ?_⟩,
    pairwise_append.mpr ⟨hapartFront,
      pairwise_cons.mpr ⟨fun other _ _ hmerge => absurd hmerge hmerges, hapartBack⟩,
      fun first hfirst second hmem htype hmerge => ?_⟩⟩, fun type offset => ?_⟩
  · rcases mem_append.mp hmem with hmem | hmem
    · exact hlist.nonempty other (mem_append_left _ hmem)
    rcases mem_cons.mp hmem with rfl | hmem
    · exact hmarker
    · exact hlist.nonempty other (mem_append_right _ hmem)
  · rcases mem_cons.mp hmem with rfl | hmem
    · exact hfrontLe first hfirst
    · exact hsorted first hfirst second hmem
  · rcases mem_cons.mp hmem with rfl | hmem
    · rw [Merges, htype] at hmerge
      exact absurd hmerge hmerges
    · exact hapart first hfirst second hmem htype hmerge
  · rw [overlay, and_iff_left fun h => hmerges h.1, hsplit, marks_append, marks_append, marks_cons,
      or_left_comm, or_comm]

theorem insertInto_overlay : Normal ios (marker.insertInto ios list) ∧
    ∀ type offset, Marks (marker.insertInto ios list) type offset ↔
      marker.overlay ios (Marks list) type offset := by
  by_cases hmerges : marker.Merges ios
  · exact insertInto_of_merges hmarker hlist hmerges
  · exact insertInto_of_not_merges hmarker hlist hmerges

end Insert

end DocumentMarker

open DocumentMarker

/-- What runs on behind one of the markers is marked by those that follow it. -/
def KeepsMarks (ios : Bool) (marking : Marking) (markers : MarkerList) : Prop :=
  ∀ before marker after, markers = before ++ marker :: after → marker.Merges ios → ∀ offset,
    marker.RunsOn (fun type offset => marking type offset ∨ Marks before type offset) offset →
      Marks after marker.type offset

section Overlays

variable {ios : Bool} {marking marking' : Marking} {marker : DocumentMarker} {markers : MarkerList}
  {type : MarkerType} {offset : ℤ}

theorem DocumentMarker.RunsOn.mono (h : marker.RunsOn marking offset)
    (hle : ∀ type offset, marking type offset → marking' type offset) : marker.RunsOn marking' offset :=
  ⟨h.1, fun between hfirst hlast => hle _ _ (h.2 between hfirst hlast)⟩

theorem DocumentMarker.overlay_le (h : marker.overlay ios marking type offset) :
    marking type offset ∨ marker.Covers type offset :=
  h.imp_left And.left

theorem foldl_overlay_le (h : markers.foldl (fun marking marker => marker.overlay ios marking) marking
    type offset) : marking type offset ∨ Marks markers type offset := by
  induction markers generalizing marking with
  | nil => exact .inl h
  | cons marker markers ih =>
    rw [marks_cons, ← or_assoc]
    exact (ih h).imp_left overlay_le

theorem keepsMarks_cons : KeepsMarks ios marking (marker :: markers) ↔
    (marker.Merges ios → ∀ offset, marker.RunsOn marking offset → Marks markers marker.type offset) ∧
      KeepsMarks ios (fun type offset => marking type offset ∨ marker.Covers type offset) markers := by
  constructor
  · intro h
    refine ⟨fun hmerges offset hruns => ?_, fun before other after heq hmerges offset hruns => ?_⟩
    · exact h [] marker markers rfl hmerges offset (hruns.mono fun _ _ => .inl)
    · refine h (marker :: before) other after (by rw [heq, cons_append]) hmerges offset ?_
      exact hruns.mono fun _ _ hmark => by rwa [marks_cons, ← or_assoc]
  · rintro ⟨hfirst, hrest⟩ before other after heq hmerges offset hruns
    cases before with
    | nil =>
      obtain ⟨rfl, rfl⟩ := cons.inj heq
      exact hfirst hmerges offset (hruns.mono fun _ _ hmark => hmark.resolve_right marks_nil)
    | cons first before =>
      obtain ⟨rfl, htail⟩ := cons.inj heq
      refine hrest before other after htail hmerges offset (hruns.mono fun _ _ hmark => ?_)
      rwa [marks_cons, ← or_assoc] at hmark

theorem KeepsMarks.anti (h : KeepsMarks ios marking' markers)
    (hle : ∀ type offset, marking type offset → marking' type offset) :
    KeepsMarks ios marking markers :=
  fun before marker after heq hmerges offset hruns =>
    h before marker after heq hmerges offset (hruns.mono fun _ _ => Or.imp_left (hle _ _))

/-- Markers of which each keeps what was marked add what they mark. -/
theorem foldl_overlay_of_keepsMarks (h : KeepsMarks ios marking markers) :
    ∀ type offset, markers.foldl (fun marking marker => marker.overlay ios marking) marking type offset ↔
      marking type offset ∨ Marks markers type offset := by
  induction markers generalizing marking with
  | nil => exact fun _ _ => (or_iff_left marks_nil).symm
  | cons marker markers ih =>
    obtain ⟨hfirst, hrest⟩ := keepsMarks_cons.mp h
    intro type offset
    rw [foldl_cons, ih (hrest.anti fun _ _ => overlay_le), marks_cons, ← or_assoc]
    refine ⟨Or.imp_left overlay_le, ?_⟩
    rintro ((hmark | hcovers) | hmarks)
    · by_cases hlost : marker.Merges ios ∧ type = marker.type ∧ marker.RunsOn marking offset
      · obtain ⟨hmerges, rfl, hruns⟩ := hlost
        exact .inr (hfirst hmerges offset hruns)
      · exact .inl (.inl ⟨hmark, hlost⟩)
    · exact .inl (.inr hcovers)
    · exact .inr hmarks

/-- What is kept after the first marker was kept by it, if the markers come in order. -/
theorem KeepsMarks.of_overlay
    (hsorted : markers.Pairwise fun first second => first.startOffset ≤ second.startOffset)
    (hnonempty : ∀ other ∈ markers, other.startOffset < other.endOffset)
    (hfirst : marker.Merges ios → ∀ offset, marker.RunsOn marking offset →
      Marks markers marker.type offset)
    (h : KeepsMarks ios (marker.overlay ios marking) markers) :
    KeepsMarks ios (fun type offset => marking type offset ∨ marker.Covers type offset) markers := by
  rintro before other after rfl hmerges offset ⟨hend, hruns⟩
  have hlost : ∀ {between : ℤ}, other.startOffset.toNat ≤ between → between ≤ offset →
      ¬(marker.overlay ios marking other.type between ∨ Marks before other.type between) →
      marker.Merges ios ∧ other.type = marker.type ∧ marker.RunsOn marking between := by
    intro between hstart hlast hnot
    rw [not_or, overlay, not_or, not_and, not_not] at hnot
    obtain ⟨⟨hover, hcovers⟩, hbefore⟩ := hnot
    exact hover (((hruns between hstart hlast).resolve_right hbefore).resolve_right hcovers)
  by_cases hmark : marker.overlay ios marking other.type offset ∨ Marks before other.type offset
  · refine h before other after rfl hmerges offset ⟨hend, fun between hstart hlast => ?_⟩
    induction between, hlast using Int.leInductionDown with
    | base => exact hmark
    | pred next hnext ih =>
      have ih := ih (by omega)
      by_contra hnot
      obtain ⟨hmerge, htype, hstop, hrun⟩ := hlost hstart (by omega) hnot
      rw [not_or] at hnot
      rcases ih with (⟨hnextMark, hkept⟩ | hcovers) | ⟨earlier, hmem, hsame, hleft, hright⟩
      · refine hkept ⟨hmerge, htype, by omega, fun between' hbegin hfinish => ?_⟩
        by_cases hlast : between' ≤ next - 1
        · exact hrun between' hbegin hlast
        · rw [show between' = next by omega, ← htype]
          exact hnextMark
      · have hlt := hcovers.2.2
        omega
      · have hle := (pairwise_append.mp hsorted).2.2 earlier hmem other mem_cons_self
        rw [UInt32.le_iff_toNat_le] at hle
        exact hnot.2 ⟨earlier, hmem, hsame, by omega, by omega⟩
  · have hstart := hnonempty other (mem_append_right _ mem_cons_self)
    rw [UInt32.lt_iff_toNat_lt] at hstart
    obtain ⟨hmerge, htype, hrun⟩ := hlost (by omega) le_rfl hmark
    have hlater := hfirst hmerge offset hrun
    rw [← htype, marks_append, marks_cons] at hlater
    refine (hlater.resolve_left (not_or.mp hmark).2).resolve_left fun hcovers => ?_
    have hlt := hcovers.2.2
    omega

/-- Markers that come in order add what they mark exactly if each keeps what was marked. -/
theorem keepsMarks_of_foldl_overlay
    (hsorted : markers.Pairwise fun first second => first.startOffset ≤ second.startOffset)
    (hnonempty : ∀ marker ∈ markers, marker.startOffset < marker.endOffset)
    (h : ∀ type offset, marking type offset ∨ Marks markers type offset →
      markers.foldl (fun marking marker => marker.overlay ios marking) marking type offset) :
    KeepsMarks ios marking markers := by
  induction markers generalizing marking with
  | nil =>
    intro before marker after heq
    simp at heq
  | cons marker markers ih =>
    have hfirst : marker.Merges ios → ∀ offset, marker.RunsOn marking offset →
        Marks markers marker.type offset := by
      intro hmerges offset hruns
      have hmarker := hnonempty marker mem_cons_self
      rw [UInt32.lt_iff_toNat_lt] at hmarker
      have hend := hruns.1
      have hmark := hruns.2 offset (by omega) le_rfl
      have hfold := @foldl_overlay_le ios (marker.overlay ios marking) markers _ _ (h _ _ (.inl hmark))
      rcases hfold with (⟨-, hkept⟩ | hcovers) | hmarks
      · exact absurd ⟨hmerges, rfl, hruns⟩ hkept
      · have hlt := hcovers.2.2
        omega
      · exact hmarks
    have hrest : ∀ type offset, marker.overlay ios marking type offset ∨ Marks markers type offset →
        markers.foldl (fun marking marker => marker.overlay ios marking)
          (marker.overlay ios marking) type offset := by
      intro type offset hmark
      refine h type offset ?_
      rw [marks_cons, ← or_assoc]
      exact hmark.imp_left overlay_le
    have hsorted := (pairwise_cons.mp hsorted).2
    have hnonempty := (forall_mem_cons.mp hnonempty).2
    exact keepsMarks_cons.mpr
      ⟨hfirst, .of_overlay hsorted hnonempty hfirst (ih hsorted hnonempty hrest)⟩

end Overlays

end WebKit.DOM
