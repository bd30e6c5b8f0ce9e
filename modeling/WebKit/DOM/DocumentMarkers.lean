import WebKit.DOM.MarkerLists

/-!
The markers of the text of a document. Copying markers to another node clips and shifts them
in the list of the first node itself, and takes the last offset of the range for the end of a
marker. The first node keeps its markers only where nothing is clipped or shifted, and the other one
gets the parts in the range only where no mark of its own runs on behind one of them.
-/

namespace WebKit.DOM

open List DocumentMarker
open Function (update)

/-- The last offset of a range, as `copyMarkers` computes it. -/
abbrev lastOffset (startOffset : UInt32) (length : Int32) : UInt32 :=
  startOffset + length.toUInt32 - 1

/-- The loop of `copyMarkers` goes up to the first marker past the range. -/
abbrev reaches (startOffset : UInt32) (length : Int32) (marker : DocumentMarker) : Bool :=
  marker.startOffset ≤ lastOffset startOffset length

namespace DocumentMarker

variable (startOffset : UInt32) (length delta : Int32) (marker : DocumentMarker)

/-- What `copyMarkers` makes of a marker of the first node, in place. -/
def pin : DocumentMarker :=
  if marker.endOffset < startOffset then marker
  else
    { marker with
      startOffset := (if marker.startOffset < startOffset then startOffset
        else marker.startOffset) + delta.toUInt32
      endOffset := (if marker.endOffset > lastOffset startOffset length then
        lastOffset startOffset length else marker.endOffset) + delta.toUInt32 }

/-- The offsets of the part of a marker inside of a half-open range, shifted. -/
def PartCovers (type : MarkerType) (offset : ℤ) : Prop :=
  marker.Covers type (offset - delta.toInt) ∧ startOffset.toNat ≤ offset - delta.toInt ∧
    offset - delta.toInt < startOffset.toNat + length.toInt

/-- A marker that is not in front of the range is neither clipped nor shifted. -/
abbrev Untouched : Prop :=
  startOffset ≤ marker.endOffset → delta = 0 ∧ startOffset ≤ marker.startOffset ∧
    marker.endOffset ≤ lastOffset startOffset length

end DocumentMarker

structure DocumentMarkerController (Node : Type*) where
  markers : Node → Option MarkerList
  possiblyExistingMarkerTypes : Finset MarkerType

namespace DocumentMarkerController

variable {Node : Type*} [DecidableEq Node] (ios : Bool) (dstNode : Node)

def addMarker (controller : DocumentMarkerController Node) (newMarker : DocumentMarker) :
    DocumentMarkerController Node :=
  if newMarker.endOffset = newMarker.startOffset then controller
  else
    { markers := update controller.markers dstNode
        (some ((controller.markers dstNode).elim [newMarker] (newMarker.insertInto ios)))
      possiblyExistingMarkerTypes := insert newMarker.type controller.possiblyExistingMarkerTypes }

variable (startOffset : UInt32) (length delta : Int32)

/-- One turn of the loop, for the other node. -/
def copyMarker (controller : DocumentMarkerController Node) (marker : DocumentMarker) :
    DocumentMarkerController Node :=
  if marker.endOffset < startOffset then controller
  else addMarker ios dstNode controller (marker.pin startOffset length delta)

def copyMarkers (controller : DocumentMarkerController Node) (srcNode : Node) :
    DocumentMarkerController Node :=
  if length ≤ 0 then controller
  else if controller.possiblyExistingMarkerTypes = ∅ then controller
  else
    match controller.markers srcNode with
    | none => controller
    | some list =>
      let reached := list.takeWhile (reaches startOffset length)
      let copied := reached.foldl (copyMarker ios dstNode startOffset length delta) controller
      { copied with
        markers := update copied.markers srcNode (some
          (reached.map (·.pin startOffset length delta) ++
            list.dropWhile (reaches startOffset length))) }

def list (controller : DocumentMarkerController Node) (node : Node) : MarkerList :=
  (controller.markers node).getD []

/-- The other node has the marks that it had and the parts of the markers in the range, and nothing
else changes. -/
structure Copies (controller result : DocumentMarkerController Node) (srcNode : Node) : Prop where
  others : ∀ node, node ≠ dstNode → result.markers node = controller.markers node
  added : ∀ type offset, Marks (result.list dstNode) type offset ↔
    Marks (controller.list dstNode) type offset ∨
      ∃ marker ∈ controller.list srcNode, marker.PartCovers startOffset length delta type offset

/-- The markers of a list that the loop adds to the other one. -/
def addedMarkers (list : MarkerList) : MarkerList :=
  (list.takeWhile (reaches startOffset length)).filter fun marker =>
    startOffset ≤ marker.endOffset ∧ marker.startOffset < marker.endOffset

/-- No marker is clipped or shifted, no mark runs on behind an added marker unless a later one has it
too, and the markers that are not reached add nothing. -/
structure Harmless (list dstList : MarkerList) : Prop where
  untouched : ∀ marker ∈ list.takeWhile (reaches startOffset length),
    marker.Untouched startOffset length delta
  keepsMarks : KeepsMarks ios (Marks dstList) (addedMarkers startOffset length list)
  reached : ∀ marker ∈ list.dropWhile (reaches startOffset length), ∀ type offset,
    marker.PartCovers startOffset length delta type offset →
      Marks dstList type offset ∨ Marks (addedMarkers startOffset length list) type offset

section Pin

variable {startOffset length delta} {marker : DocumentMarker}

theorem toInt_length (hlength : 0 < length) : length.toInt = length.toUInt32.toNat ∧
    0 < length.toUInt32.toNat ∧ length.toUInt32.toNat < 2 ^ 31 := by
  have hpos : 0 < length.toInt := Int32.lt_iff_toInt_lt.mp hlength
  have hlt := length.toUInt32.toNat_lt
  have hcond : length.toInt = if 2 * length.toUInt32.toNat < 2 ^ 32 then
      (length.toUInt32.toNat : ℤ) else length.toUInt32.toNat - (2 ^ 32 : ℕ) :=
    BitVec.toInt_eq_toNat_cond length.toBitVec
  split_ifs at hcond <;> omega

/-- A marker stays the same only if it is neither clipped nor shifted. -/
theorem pin_eq_iff (hlength : 0 < length) (hreached : reaches startOffset length marker) :
    marker.pin startOffset length delta = marker ↔
      marker.Untouched startOffset length delta := by
  have hzero : delta = 0 ↔ delta.toUInt32 = 0 :=
    ⟨fun h => congrArg Int32.toUInt32 h, fun h => congrArg Int32.ofUInt32 h⟩
  have hbounds := (toInt_length hlength).2
  have hstart := marker.startOffset.toNat_lt
  have hend := marker.endOffset.toNat_lt
  have hrange := startOffset.toNat_lt
  have hshift := delta.toUInt32.toNat_lt
  obtain ⟨type, first, last⟩ := marker
  rw [DocumentMarker.pin, DocumentMarker.Untouched, hzero]
  split_ifs with hfront
  · exact iff_of_true rfl fun h => absurd hfront (UInt32.not_lt.mpr h)
  all_goals
    simp only [DocumentMarker.mk.injEq, UInt32.le_iff_toNat_le, UInt32.lt_iff_toNat_lt,
      ← UInt32.toNat_inj, UInt32.toNat_add, UInt32.toNat_sub, UInt32.reduceToNat,
      decide_eq_true_eq, gt_iff_lt, true_and] at *
    omega

/-- The part of a marker that is not touched is the whole of it, if the loop adds it. -/
theorem partCovers_iff (hlength : 0 < length) (hreached : reaches startOffset length marker)
    (hordered : marker.startOffset ≤ marker.endOffset)
    (h : marker.Untouched startOffset length delta) {type : MarkerType} {offset : ℤ} :
    marker.PartCovers startOffset length delta type offset ↔
      (startOffset ≤ marker.endOffset ∧ marker.startOffset < marker.endOffset) ∧
        marker.Covers type offset := by
  obtain ⟨hint, hpos, hlt⟩ := toInt_length hlength
  have hrange := startOffset.toNat_lt
  by_cases hfront : startOffset ≤ marker.endOffset
  · obtain ⟨rfl, hstart, hend⟩ := h hfront
    have hzero : (0 : Int32).toInt = 0 := rfl
    simp only [reaches, UInt32.le_iff_toNat_le, UInt32.lt_iff_toNat_lt, UInt32.toNat_add,
      UInt32.toNat_sub, UInt32.reduceToNat, decide_eq_true_eq] at hstart hend hordered hfront hreached ⊢
    rw [PartCovers, Covers, Covers, hzero, hint, sub_zero]
    constructor
    · rintro ⟨⟨htype, hleft, hright⟩, -⟩
      exact ⟨⟨hfront, by omega⟩, htype, hleft, hright⟩
    · rintro ⟨-, htype, hleft, hright⟩
      exact ⟨⟨htype, hleft, hright⟩, by omega, by omega⟩
  · refine iff_of_false ?_ fun h => hfront h.1.1
    rintro ⟨⟨-, -, hright⟩, hleft, -⟩
    rw [UInt32.le_iff_toNat_le] at hfront
    omega

end Pin

variable {ios dstNode startOffset length delta} {controller : DocumentMarkerController Node}
  {srcNode : Node} {marker : DocumentMarker} {markers : MarkerList}

theorem insertInto_nil : marker.insertInto ios [] = [marker] := by
  rw [insertInto]
  split_ifs <;> rfl

theorem list_addMarker (h : marker.startOffset < marker.endOffset) :
    (addMarker ios dstNode controller marker).list dstNode =
      marker.insertInto ios (controller.list dstNode) := by
  rw [addMarker, if_neg (UInt32.ne_of_lt h).symm]
  simp only [list, Function.update_self, Option.getD_some]
  cases controller.markers dstNode with
  | none => exact insertInto_nil.symm
  | some list => rfl

theorem markers_addMarker {node : Node} (hne : node ≠ dstNode) :
    (addMarker ios dstNode controller marker).markers node = controller.markers node := by
  rw [addMarker]
  split_ifs
  · rfl
  · exact Function.update_of_ne hne _ _

theorem markers_foldl_copyMarker {node : Node} (hne : node ≠ dstNode) :
    (markers.foldl (copyMarker ios dstNode startOffset length delta) controller).markers node =
      controller.markers node := by
  induction markers generalizing controller with
  | nil => rfl
  | cons marker markers ih =>
    refine ih.trans ?_
    rw [copyMarker]
    split_ifs
    · rfl
    · exact markers_addMarker hne

/-- Markers that are not touched are laid over the marks of the other node one after the other. -/
theorem marks_foldl_copyMarker (hlength : 0 < length)
    (huntouched : ∀ marker ∈ markers, reaches startOffset length marker ∧
      marker.startOffset ≤ marker.endOffset ∧ marker.Untouched startOffset length delta)
    (hdst : Normal ios (controller.list dstNode)) :
    Marks ((markers.foldl (copyMarker ios dstNode startOffset length delta) controller).list dstNode) =
      (markers.filter fun marker => startOffset ≤ marker.endOffset ∧
        marker.startOffset < marker.endOffset).foldl
        (fun marking marker => marker.overlay ios marking) (Marks (controller.list dstNode)) := by
  induction markers generalizing controller with
  | nil => rfl
  | cons marker markers ih =>
    obtain ⟨⟨hreached, hordered, huntouched⟩, hrest⟩ := forall_mem_cons.mp huntouched
    have hpin := (pin_eq_iff hlength hreached).mpr huntouched
    rw [foldl_cons, copyMarker, hpin]
    by_cases hadded : startOffset ≤ marker.endOffset ∧ marker.startOffset < marker.endOffset
    · rw [if_neg (UInt32.not_lt.mpr hadded.1), filter_cons_of_pos (by simpa using hadded), foldl_cons]
      obtain ⟨hnormal, hmarks⟩ := insertInto_overlay hadded.2 hdst
      rw [← list_addMarker hadded.2] at hnormal hmarks
      rw [ih hrest hnormal, funext₂ fun type offset => propext (hmarks type offset)]
    · rw [filter_cons_of_neg (by simpa using hadded)]
      split_ifs with hfront
      · exact ih hrest hdst
      · have hempty : marker.endOffset = marker.startOffset := by
          refine UInt32.le_antisymm (UInt32.not_lt.mp fun hlt => ?_) hordered
          exact hadded ⟨UInt32.not_lt.mp hfront, hlt⟩
        rw [addMarker, if_pos hempty]
        exact ih hrest hdst

section Copy

variable (hlength : 0 < length) (hordered : ∀ marker ∈ markers, marker.startOffset ≤ marker.endOffset)
  (huntouched : ∀ marker ∈ markers.takeWhile (reaches startOffset length),
    marker.Untouched startOffset length delta)

include hlength hordered huntouched

/-- The parts of the markers are those that the loop adds and those of the markers not reached. -/
theorem exists_partCovers_iff {type : MarkerType} {offset : ℤ} :
    (∃ marker ∈ markers, marker.PartCovers startOffset length delta type offset) ↔
      Marks (addedMarkers startOffset length markers) type offset ∨
        ∃ marker ∈ markers.dropWhile (reaches startOffset length),
          marker.PartCovers startOffset length delta type offset := by
  have hreached : ∀ marker ∈ markers.takeWhile (reaches startOffset length),
      (marker.PartCovers startOffset length delta type offset ↔
        (startOffset ≤ marker.endOffset ∧ marker.startOffset < marker.endOffset) ∧
          marker.Covers type offset) := fun marker hmem =>
    partCovers_iff hlength (mem_takeWhile_imp hmem) (hordered marker (takeWhile_subset _ hmem))
      (huntouched marker hmem)
  have hsplit : markers = markers.takeWhile (reaches startOffset length) ++
      markers.dropWhile (reaches startOffset length) := takeWhile_append_dropWhile.symm
  nth_rw 1 [hsplit]
  simp only [mem_append, or_and_right, exists_or]
  refine or_congr_left (exists_congr fun marker => ?_)
  rw [addedMarkers, mem_filter, decide_eq_true_iff, and_assoc]
  exact and_congr_right (hreached marker)

/-- If the added marks are all there, nothing is lost and the markers not reached add nothing. -/
theorem harmless_of_foldl_overlay {dstList : MarkerList}
    (hsorted : markers.Pairwise fun first second => first.startOffset ≤ second.startOffset) :
    (∀ type offset, (addedMarkers startOffset length markers).foldl
          (fun marking marker => marker.overlay ios marking) (Marks dstList) type offset ↔
        Marks dstList type offset ∨
          ∃ marker ∈ markers, marker.PartCovers startOffset length delta type offset) →
      Harmless ios startOffset length delta markers dstList := by
  intro h
  have hparts := @exists_partCovers_iff startOffset length delta markers hlength hordered huntouched
  refine ⟨huntouched, keepsMarks_of_foldl_overlay ?_ ?_ fun type offset hmark => ?_,
    fun marker hmem type offset hcovers => ?_⟩
  · exact (hsorted.sublist (takeWhile_sublist _)).filter _
  · intro marker hmem
    exact (of_decide_eq_true (mem_filter.mp hmem).2).2
  · rw [h, hparts]
    exact hmark.imp_right .inl
  · exact foldl_overlay_le ((h type offset).mpr (.inr (hparts.mpr (.inr ⟨marker, hmem, hcovers⟩))))

end Copy

section CopyMarkers

variable (hlength : 0 < length)
  (htypes : ∀ marker ∈ controller.list srcNode,
    marker.type ∈ controller.possiblyExistingMarkerTypes)

include hlength htypes

/-- The markers of all nodes after copying. -/
theorem markers_copyMarkers (node : Node) :
    (copyMarkers ios dstNode startOffset length delta controller srcNode).markers node =
      if node = srcNode then (controller.markers srcNode).map fun list =>
        (list.takeWhile (reaches startOffset length)).map (·.pin startOffset length delta) ++
          list.dropWhile (reaches startOffset length)
      else (((controller.list srcNode).takeWhile (reaches startOffset length)).foldl
        (copyMarker ios dstNode startOffset length delta) controller).markers node := by
  by_cases hempty : controller.possiblyExistingMarkerTypes = ∅
  · have hnil : controller.list srcNode = [] := eq_nil_iff_forall_not_mem.mpr fun marker hmem =>
      absurd (htypes marker hmem) (by simp [hempty])
    rw [copyMarkers, if_neg (Int32.not_le.mpr hlength), if_pos hempty, hnil]
    split_ifs with hnode
    · rw [hnode]
      rw [list] at hnil
      cases hget : controller.markers srcNode with
      | none => rfl
      | some list =>
        rw [hget, Option.getD_some] at hnil
        rw [hnil]
        rfl
    · rfl
  · rw [copyMarkers, if_neg (Int32.not_le.mpr hlength), if_neg hempty, list]
    cases hget : controller.markers srcNode with
    | none =>
      split_ifs with hnode
      · rw [hnode, hget, Option.map_none]
      · rfl
    | some list =>
      dsimp only
      split_ifs with hnode
      · rw [hnode, Function.update_self, Option.map_some]
      · rw [Function.update_of_ne hnode, Option.getD_some]

theorem markers_copyMarkers_source_iff :
    (copyMarkers ios dstNode startOffset length delta controller srcNode).markers srcNode =
        controller.markers srcNode ↔
      ∀ marker ∈ (controller.list srcNode).takeWhile (reaches startOffset length),
        marker.Untouched startOffset length delta := by
  rw [markers_copyMarkers hlength htypes, if_pos rfl, list]
  cases controller.markers srcNode with
  | none => simp
  | some list =>
    rw [Option.map_some, Option.some_inj, Option.getD_some]
    nth_rw 3 [← @takeWhile_append_dropWhile _ (reaches startOffset length) list]
    rw [append_left_inj]
    nth_rw 2 [← map_id (list.takeWhile (reaches startOffset length))]
    rw [map_inj_left]
    exact forall₂_congr fun marker hmem => pin_eq_iff hlength (mem_takeWhile_imp hmem)

end CopyMarkers

/-- The two nodes have one marker each. -/
def twoMarkers (src dst : DocumentMarker) : DocumentMarkerController Bool where
  markers := fun node => some (if node then [dst] else [src])
  possiblyExistingMarkerTypes := {src.type, dst.type}

example : (copyMarkers false true 0 10 0 (twoMarkers ⟨.spelling, 2, 4⟩ ⟨.spelling, 0, 10⟩) false).list true =
    [⟨.spelling, 0, 4⟩] := by
  decide

end DocumentMarkerController
end WebKit.DOM
