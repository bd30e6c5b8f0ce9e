import WebKit.Foundation.StepFunctions

/-!
Shapes of scan lines. A shape is a list of spans, which begin at increasing ordinates and have a part
of a common list of segments; the segments of a span are the abscissas at which the shape is entered
and left in turn. Two shapes are combined in one pass over their spans, in which the segments of
spans that overlap are merged. A shape is read as the list of its rows, which are the steps of a
function from ordinates to segments.
-/

namespace WebKit.Graphics

open List StepFunctions

structure Span where
  y : ℤ
  segmentIndex : ℕ

structure Shape where
  segments : List ℤ
  spans : List Span

abbrev Row := ℤ × List ℤ

namespace Shape

def empty : Shape := ⟨[], []⟩

variable (shape : Shape)

def isEmpty : Bool := shape.spans.isEmpty

def isRect : Bool := shape.spans.length ≤ 2 && shape.segments.length ≤ 2

def appendSpan (y : ℤ) : Shape :=
  { shape with spans := shape.spans ++ [⟨y, shape.segments.length⟩] }

def appendSegment (x : ℤ) : Shape := { shape with segments := shape.segments ++ [x] }

def canCoalesce (segments : List ℤ) : Bool :=
  match shape.spans.getLast? with
  | none => false
  | some last => shape.segments.drop last.segmentIndex = segments

def appendSpanOf (y : ℤ) (segments : List ℤ) : Shape :=
  if shape.canCoalesce segments then shape
  else
    let shape := shape.appendSpan y
    { shape with segments := shape.segments ++ segments }

def appendSpans (rows : List Row) : Shape :=
  rows.foldl (fun shape row => shape.appendSpanOf row.1 row.2) shape

def rowsFrom (segments : List ℤ) : List Span → List Row
  | [] => []
  | [span] => [(span.y, segments.drop span.segmentIndex)]
  | span :: next :: rest =>
    (span.y, (segments.drop span.segmentIndex).take (next.segmentIndex - span.segmentIndex)) ::
      rowsFrom segments (next :: rest)

def rows : List Row := rowsFrom shape.segments shape.spans

def translate (width height : ℤ) : Shape where
  segments := shape.segments.map (· + width)
  spans := shape.spans.map fun span => { span with y := span.y + height }

structure Operation where
  trySimpleOperation : Shape → Shape → Option Shape
  opCode : ℕ
  shouldAddRemainingSegmentsFromSpan1 : Bool
  shouldAddRemainingSegmentsFromSpan2 : Bool
  shouldAddRemainingSpansFromShape1 : Bool
  shouldAddRemainingSpansFromShape2 : Bool

variable (op : Operation)

/-- The loop over the segments of two spans. Bit 0 of the flag says whether the first span is entered,
bit 1 whether the second one is. -/
def segmentsLoop (s1 s2 : List ℤ) (oldFlag : ℕ) (segments : List ℤ) : List ℤ :=
  match s1, s2 with
  | x1 :: rest1, x2 :: rest2 =>
    let test := x1 - x2
    let flag := if test ≤ 0 then oldFlag ^^^ 1 else oldFlag
    let flag := if test ≥ 0 then flag ^^^ 2 else flag
    let x := if test ≥ 0 then x2 else x1
    segmentsLoop (if test ≤ 0 then rest1 else x1 :: rest1) (if test ≥ 0 then rest2 else x2 :: rest2)
      flag (if flag = op.opCode ∨ oldFlag = op.opCode then segments ++ [x] else segments)
  | s1, s2 =>
    if op.shouldAddRemainingSegmentsFromSpan1 && !s1.isEmpty then segments ++ s1
    else if op.shouldAddRemainingSegmentsFromSpan2 && !s2.isEmpty then segments ++ s2
    else segments
termination_by s1.length + s2.length
decreasing_by
  split_ifs <;> simp only [length_cons] <;> omega

def combineSegments (segments1 segments2 : List ℤ) : List ℤ :=
  segmentsLoop op segments1 segments2 0 []

def spansLoop (spans1 spans2 : List Row) (segments1 segments2 : List ℤ) (result : Shape) : Shape :=
  match spans1, spans2 with
  | (y1, next1) :: rest1, (y2, next2) :: rest2 =>
    let test := y1 - y2
    let y := if test ≥ 0 then y2 else y1
    let segments1 := if test ≤ 0 then next1 else segments1
    let segments2 := if test ≥ 0 then next2 else segments2
    let segments := combineSegments op segments1 segments2
    spansLoop (if test ≤ 0 then rest1 else (y1, next1) :: rest1)
      (if test ≥ 0 then rest2 else (y2, next2) :: rest2) segments1 segments2
      (if !segments.isEmpty || !result.isEmpty then result.appendSpanOf y segments else result)
  | spans1, spans2 =>
    if op.shouldAddRemainingSpansFromShape1 && !spans1.isEmpty then result.appendSpans spans1
    else if op.shouldAddRemainingSpansFromShape2 && !spans2.isEmpty then result.appendSpans spans2
    else result
termination_by spans1.length + spans2.length
decreasing_by
  split_ifs <;> simp only [length_cons] <;> omega

variable (shape1 shape2 : Shape)

def shapeOperation : Shape :=
  match op.trySimpleOperation shape1 shape2 with
  | some result => result
  | none => spansLoop op shape1.rows shape2.rows [] [] empty

def unionOperation : Operation where
  trySimpleOperation shape1 shape2 := if shape1.isEmpty then some shape2 else none
  opCode := 0
  shouldAddRemainingSegmentsFromSpan1 := true
  shouldAddRemainingSegmentsFromSpan2 := true
  shouldAddRemainingSpansFromShape1 := true
  shouldAddRemainingSpansFromShape2 := true

def intersectOperation : Operation where
  trySimpleOperation _ _ := none
  opCode := 3
  shouldAddRemainingSegmentsFromSpan1 := false
  shouldAddRemainingSegmentsFromSpan2 := false
  shouldAddRemainingSpansFromShape1 := false
  shouldAddRemainingSpansFromShape2 := false

def subtractOperation : Operation where
  trySimpleOperation _ _ := none
  opCode := 1
  shouldAddRemainingSegmentsFromSpan1 := true
  shouldAddRemainingSegmentsFromSpan2 := false
  shouldAddRemainingSpansFromShape1 := true
  shouldAddRemainingSpansFromShape2 := false

def unionShapes : Shape := shapeOperation unionOperation shape1 shape2

def intersectShapes : Shape := shapeOperation intersectOperation shape1 shape2

def subtractShapes : Shape := shapeOperation subtractOperation shape1 shape2

def spansOf : ℕ → List Row → List Span
  | _, [] => []
  | index, row :: rest => ⟨row.1, index⟩ :: spansOf (index + row.2.length) rest

def ofRows (rows : List Row) : Shape := ⟨rows.flatMap Prod.snd, spansOf 0 rows⟩

section Rows

variable {rows : List Row}

theorem rowsFrom_spansOf (before : List ℤ) (rows : List Row) :
    rowsFrom (before ++ rows.flatMap Prod.snd) (spansOf before.length rows) = rows := by
  induction rows generalizing before with
  | nil => rfl
  | cons row rest ih =>
    have hrest := ih (before ++ row.2)
    rw [length_append, append_assoc, ← flatMap_cons] at hrest
    cases rest with
    | nil =>
      rw [spansOf, spansOf, rowsFrom, drop_left, flatMap_singleton]
    | cons next rest =>
      rw [spansOf, spansOf, rowsFrom, drop_left, Nat.add_sub_cancel_left, flatMap_cons,
        take_left, ← flatMap_cons]
      rw [spansOf] at hrest
      rw [hrest]

variable (rows : List Row)

theorem rows_ofRows : (ofRows rows).rows = rows := rowsFrom_spansOf [] rows

theorem spansOf_append (index : ℕ) (rows more : List Row) : spansOf index (rows ++ more) =
      spansOf index rows ++ spansOf (index + (rows.flatMap Prod.snd).length) more := by
  induction rows generalizing index with
  | nil => rfl
  | cons row rest ih =>
    rw [cons_append, spansOf, spansOf, ih, flatMap_cons, length_append, Nat.add_assoc, cons_append]

theorem isEmpty_ofRows : (ofRows rows).isEmpty = rows.isEmpty := by
  cases rows <;> rfl

theorem canCoalesce_ofRows (segments : List ℤ) :
    (ofRows rows).canCoalesce segments ↔ rows ≠ [] ∧ segments = lastValue [] rows := by
  rcases eq_nil_or_concat' rows with rfl | ⟨init, row, rfl⟩
  · exact iff_of_false nofun fun h => h.1 rfl
  · have hlast : (spansOf 0 (init ++ [row])).getLast? =
        some ⟨row.1, (init.flatMap Prod.snd).length⟩ := by
      rw [spansOf_append, Nat.zero_add]
      exact List.getLast?_concat
    have hsegs : (init ++ [row]).flatMap Prod.snd = init.flatMap Prod.snd ++ row.2 := by
      rw [flatMap_append, flatMap_singleton]
    rw [lastValue_append, lastValue, lastValue]
    simp only [canCoalesce, ofRows, hlast, hsegs, drop_left, decide_eq_true_eq, ne_eq,
      append_eq_nil_iff, cons_ne_nil, and_false, not_false_eq_true, true_and]
    exact eq_comm

/-- A span is appended as a row, unless the last row has the same segments. -/
theorem appendSpanOf_ofRows (y : ℤ) (segments : List ℤ) (h : rows ≠ [] ∨ segments ≠ []) :
    (ofRows rows).appendSpanOf y segments = ofRows (push [] rows y segments) := by
  unfold appendSpanOf push
  by_cases hsame : segments = lastValue [] rows
  · have hrows : rows ≠ [] := by
      rintro rfl
      exact h.elim (fun hnil => hnil rfl) fun hsegs => hsegs hsame
    rw [if_pos ((canCoalesce_ofRows rows segments).mpr ⟨hrows, hsame⟩), if_pos hsame]
  · rw [if_neg fun hcan => hsame ((canCoalesce_ofRows rows segments).mp hcan).2, if_neg hsame]
    simp only [appendSpan, ofRows, spansOf_append, flatMap_append, flatMap_singleton,
      Nat.zero_add, spansOf]

end Rows

variable (first second : Bool)

def flagOf : ℕ := (if first then 1 else 0) + if second then 2 else 0

theorem flagOf_not_left : flagOf first second ^^^ 1 = flagOf (!first) second := by
  cases first <;> cases second <;> rfl

theorem flagOf_not_right : flagOf first second ^^^ 2 = flagOf first (!second) := by
  cases first <;> cases second <;> rfl

theorem flagOf_inj {first second first' second' : Bool}
    (h : flagOf first second = flagOf first' second') : first = first' ∧ second = second' := by
  revert h
  cases first <;> cases second <;> cases first' <;> cases second' <;> decide

namespace Operation

def selects (op : Operation) (first second : Bool) : Bool := flagOf first second = op.opCode

def combines (op : Operation) (first second : Bool) : Bool :=
  op.selects false false ^^ op.selects first second

/-- What remains of one shape is added when it belongs to the result without the other one. -/
structure Lawful (op : Operation) : Prop where
  combines_left : ∀ inFirst, op.combines inFirst false =
    (op.shouldAddRemainingSegmentsFromSpan1 && inFirst)
  combines_right : ∀ inSecond, op.combines false inSecond =
    (op.shouldAddRemainingSegmentsFromSpan2 && inSecond)
  spans1 : op.shouldAddRemainingSpansFromShape1 = op.shouldAddRemainingSegmentsFromSpan1
  spans2 : op.shouldAddRemainingSpansFromShape2 = op.shouldAddRemainingSegmentsFromSpan2

end Operation

section Segments

variable {op : Operation} {s1 s2 s1' s2' out : List ℤ} {f1 f2 f1' f2' : Bool}

structure Merges (op : Operation) (s1 s2 : List ℤ) (f1 f2 : Bool) (out : List ℤ) : Prop where
  sorted : out.Pairwise (· < ·)
  mem : ∀ x ∈ out, x ∈ s1 ∨ x ∈ s2
  bodd_length : out.length.bodd = op.combines f1 f2
  inside_eq : ∀ x, inside out x =
    (op.combines f1 f2 ^^ op.combines (f1 ^^ inside s1 x) (f2 ^^ inside s2 x))

structure Passes (x0 : ℤ) (s : List ℤ) (f : Bool) (s' : List ℤ) (f' : Bool) : Prop where
  later : ∀ x ∈ s', x0 < x
  cases : s = s' ∧ f = f' ∨ s = x0 :: s' ∧ f' = !f

variable {x0 x : ℤ} {s s' : List ℤ} {f f' : Bool}

theorem Passes.inside_of_lt (h : Passes x0 s f s' f') (hx : x < x0) :
    inside s x = false ∧ inside s' x = false := by
  have hlater : inside s' x = false :=
    StepFunctions.inside_of_lt fun edge hedge => hx.trans (h.later edge hedge)
  rcases h.cases with ⟨rfl, -⟩ | ⟨rfl, -⟩
  · exact ⟨hlater, hlater⟩
  · exact ⟨inside_cons_of_lt hx, hlater⟩

theorem Passes.inside_of_le (h : Passes x0 s f s' f') (hx : x0 ≤ x) :
    (f' ^^ inside s' x) = (f ^^ inside s x) := by
  rcases h.cases with ⟨rfl, rfl⟩ | ⟨rfl, rfl⟩
  · rfl
  · rw [inside_cons_of_le hx, Bool.not_xor, Bool.xor_not]

theorem Passes.mem (h : Passes x0 s f s' f') (hx : x ∈ s') : x ∈ s := by
  rcases h.cases with ⟨rfl, -⟩ | ⟨rfl, -⟩
  · exact hx
  · exact mem_cons_of_mem _ hx

/-- At an edge of one of the spans, it is appended when the selection changes. -/
theorem Merges.step (h : Merges op s1' s2' f1' f2' out) (h1 : Passes x0 s1 f1 s1' f1')
    (h2 : Passes x0 s2 f2 s2' f2') (hx0 : x0 ∈ s1 ∨ x0 ∈ s2) (hflag : ¬(f1' = f1 ∧ f2' = f2)) :
    Merges op s1 s2 f1 f2
      ((if flagOf f1' f2' = op.opCode ∨ flagOf f1 f2 = op.opCode then [x0] else []) ++ out) := by
  have hmem : ∀ x ∈ out, x ∈ s1 ∨ x ∈ s2 := fun x hx => (h.mem x hx).imp h1.mem h2.mem
  have hlater : ∀ x ∈ out, x0 < x := fun x hx => (h.mem x hx).elim (h1.later x) (h2.later x)
  have hlt : ∀ x < x0, inside s1 x = false ∧ inside s2 x = false ∧ inside out x = false :=
    fun x hx => ⟨(h1.inside_of_lt hx).1, (h2.inside_of_lt hx).1,
      StepFunctions.inside_of_lt fun edge hedge => hx.trans (hlater edge hedge)⟩
  have hchange : ¬(flagOf f1' f2' = op.opCode ∧ flagOf f1 f2 = op.opCode) := fun hboth =>
    hflag (flagOf_inj (hboth.1.trans hboth.2.symm))
  have hselects : (op.combines f1 f2 ^^ op.combines f1' f2') =
      decide (flagOf f1' f2' = op.opCode ∨ flagOf f1 f2 = op.opCode) := by
    simp only [Operation.combines, Operation.selects]
    by_cases h1 : flagOf f1' f2' = op.opCode <;> by_cases h2 : flagOf f1 f2 = op.opCode <;> simp_all
  have hin : ∀ x, x0 ≤ x → inside out x =
      (op.combines f1' f2' ^^ op.combines (f1 ^^ inside s1 x) (f2 ^^ inside s2 x)) := fun x hx => by
    rw [h.inside_eq, h1.inside_of_le hx, h2.inside_of_le hx]
  split_ifs with happ
  · have hnot : op.combines f1 f2 = !op.combines f1' f2' := by
      rw [decide_eq_true happ, Bool.xor_iff_ne] at hselects
      exact Bool.eq_not_of_ne hselects
    refine ⟨pairwise_cons.mpr ⟨hlater, h.sorted⟩, forall_mem_cons.mpr ⟨hx0, hmem⟩, ?_, fun x => ?_⟩
    · rw [singleton_append, length_cons, Nat.bodd_succ, h.bodd_length, hnot]
    · rw [singleton_append]
      rcases lt_or_ge x x0 with hx | hx
      · obtain ⟨h1x, h2x, -⟩ := hlt x hx
        rw [inside_cons_of_lt hx, h1x, h2x, Bool.xor_false, Bool.xor_false, Bool.xor_self]
      · rw [inside_cons_of_le hx, hin x hx, hnot, Bool.not_xor]
  · have hsame : op.combines f1 f2 = op.combines f1' f2' := by
      by_contra hne
      rw [Bool.xor_iff_ne.mpr hne, eq_comm, decide_eq_true_eq] at hselects
      exact happ hselects
    refine ⟨h.sorted, hmem, hsame ▸ h.bodd_length, fun x => ?_⟩
    rw [nil_append]
    rcases lt_or_ge x x0 with hx | hx
    · obtain ⟨h1x, h2x, houtx⟩ := hlt x hx
      rw [houtx, h1x, h2x, Bool.xor_false, Bool.xor_false, Bool.xor_self]
    · rw [hin x hx, hsame]

theorem merges_left (hop : op.Lawful) (h1 : s1.Pairwise (· < ·)) (hf1 : s1.length.bodd = f1) :
    Merges op s1 [] f1 false (if op.shouldAddRemainingSegmentsFromSpan1 then s1 else []) := by
  have hcomb := hop.combines_left
  split_ifs with hshould
  · simp only [hshould, Bool.true_and] at hcomb
    refine ⟨h1, fun x hx => .inl hx, by rw [hf1, hcomb], fun x => ?_⟩
    rw [inside_nil, Bool.xor_false, hcomb, hcomb, ← Bool.xor_assoc, Bool.xor_self, Bool.false_xor]
  · simp only [hshould, Bool.false_and] at hcomb
    refine ⟨List.Pairwise.nil, nofun, (hcomb f1).symm, fun x => ?_⟩
    rw [inside_nil, Bool.xor_false, hcomb, hcomb, Bool.xor_self]

theorem merges_right (hop : op.Lawful) (h2 : s2.Pairwise (· < ·)) (hf2 : s2.length.bodd = f2) :
    Merges op [] s2 false f2 (if op.shouldAddRemainingSegmentsFromSpan2 then s2 else []) := by
  have hcomb := hop.combines_right
  split_ifs with hshould
  · simp only [hshould, Bool.true_and] at hcomb
    refine ⟨h2, fun x hx => .inr hx, by rw [hf2, hcomb], fun x => ?_⟩
    rw [inside_nil, Bool.xor_false, hcomb, hcomb, ← Bool.xor_assoc, Bool.xor_self, Bool.false_xor]
  · simp only [hshould, Bool.false_and] at hcomb
    refine ⟨List.Pairwise.nil, nofun, (hcomb f2).symm, fun x => ?_⟩
    rw [inside_nil, Bool.xor_false, hcomb, hcomb, Bool.xor_self]

theorem segmentsLoop_nil_right (op : Operation) (s1 : List ℤ) (flag : ℕ) (segments : List ℤ) :
    segmentsLoop op s1 [] flag segments =
      segments ++ if op.shouldAddRemainingSegmentsFromSpan1 then s1 else [] := by
  cases s1 <;> cases hshould : op.shouldAddRemainingSegmentsFromSpan1 <;>
    simp [segmentsLoop, hshould]

theorem segmentsLoop_nil_left (op : Operation) (s2 : List ℤ) (flag : ℕ) (segments : List ℤ) :
    segmentsLoop op [] s2 flag segments =
      segments ++ if op.shouldAddRemainingSegmentsFromSpan2 then s2 else [] := by
  cases s2 <;> cases hshould : op.shouldAddRemainingSegmentsFromSpan2 <;>
    simp [segmentsLoop, hshould]

theorem passes_cons {rest : List ℤ} (h : (x :: rest).Pairwise (· < ·)) :
    Passes x (x :: rest) f rest (!f) :=
  ⟨(pairwise_cons.mp h).1, .inr ⟨rfl, rfl⟩⟩

theorem passes_of_lt {rest : List ℤ} (h : (x :: rest).Pairwise (· < ·)) (hlt : x0 < x) :
    Passes x0 (x :: rest) f (x :: rest) f :=
  ⟨forall_mem_cons.mpr ⟨hlt, fun y hy => hlt.trans ((pairwise_cons.mp h).1 y hy)⟩, .inl ⟨rfl, rfl⟩⟩

/-- One turn of the loop over segments passes the first of the two edges, or both of them. -/
theorem segmentsLoop_cons {x1 x2 : ℤ} {rest1 rest2 : List ℤ} (h1 : (x1 :: rest1).Pairwise (· < ·))
    (h2 : (x2 :: rest2).Pairwise (· < ·)) (f1 f2 : Bool) (segments : List ℤ) :
    ∃ x0 s1' s2' f1' f2', Passes x0 (x1 :: rest1) f1 s1' f1' ∧ Passes x0 (x2 :: rest2) f2 s2' f2' ∧
      (x0 ∈ x1 :: rest1 ∨ x0 ∈ x2 :: rest2) ∧ ¬(f1' = f1 ∧ f2' = f2) ∧
      s1'.length + s2'.length < (x1 :: rest1).length + (x2 :: rest2).length ∧
      segmentsLoop op (x1 :: rest1) (x2 :: rest2) (flagOf f1 f2) segments =
        segmentsLoop op s1' s2' (flagOf f1' f2') (segments ++
          if flagOf f1' f2' = op.opCode ∨ flagOf f1 f2 = op.opCode then [x0] else []) := by
  have happ : ∀ flag x,
      (if flag = op.opCode ∨ flagOf f1 f2 = op.opCode then segments ++ [x] else segments) =
        segments ++ if flag = op.opCode ∨ flagOf f1 f2 = op.opCode then [x] else [] := by
    intro flag x
    split_ifs
    · rfl
    · exact (append_nil segments).symm
  rw [segmentsLoop]
  rcases lt_trichotomy x1 x2 with hlt | rfl | hlt
  · refine ⟨x1, rest1, x2 :: rest2, !f1, f2, passes_cons h1, passes_of_lt h2 hlt,
      .inl mem_cons_self, by simp, by simp, ?_⟩
    have hle : x1 - x2 ≤ 0 := by omega
    have hge : ¬x1 - x2 ≥ 0 := by omega
    simp only [if_pos hle, if_neg hge, flagOf_not_left, happ]
  · refine ⟨x1, rest1, rest2, !f1, !f2, passes_cons h1, passes_cons h2,
      .inl mem_cons_self, by simp, by simp; omega, ?_⟩
    have hle : x1 - x1 ≤ 0 := by omega
    have hge : x1 - x1 ≥ 0 := by omega
    simp only [if_pos hle, if_pos hge, flagOf_not_left, flagOf_not_right, happ]
  · refine ⟨x2, x1 :: rest1, rest2, f1, !f2, passes_of_lt h1 hlt, passes_cons h2,
      .inr mem_cons_self, by simp, by simp, ?_⟩
    have hle : ¬x1 - x2 ≤ 0 := by omega
    have hge : x1 - x2 ≥ 0 := by omega
    simp only [if_neg hle, if_pos hge, flagOf_not_right, happ]

theorem Passes.pairwise (h : Passes x0 s f s' f') (hs : s.Pairwise (· < ·)) :
    s'.Pairwise (· < ·) := by
  rcases h.cases with ⟨rfl, -⟩ | ⟨rfl, -⟩
  · exact hs
  · exact (pairwise_cons.mp hs).2

theorem Passes.bodd_length (h : Passes x0 s f s' f') (hf : s.length.bodd = f) :
    s'.length.bodd = f' := by
  rcases h.cases with ⟨rfl, rfl⟩ | ⟨rfl, rfl⟩
  · exact hf
  · rw [← hf, length_cons, Nat.bodd_succ, Bool.not_not]

/-- The loop over segments appends the edges of the combined span. -/
theorem segmentsLoop_spec (hop : op.Lawful) (h1 : s1.Pairwise (· < ·)) (h2 : s2.Pairwise (· < ·))
    (hf1 : s1.length.bodd = f1) (hf2 : s2.length.bodd = f2) (segments : List ℤ) :
    ∃ out, segmentsLoop op s1 s2 (flagOf f1 f2) segments = segments ++ out ∧
      Merges op s1 s2 f1 f2 out := by
  induction hlen : s1.length + s2.length using Nat.strong_induction_on
    generalizing s1 s2 f1 f2 segments with
  | h n ih =>
    cases s1 with
    | nil =>
      subst hf1
      exact ⟨_, segmentsLoop_nil_left op s2 _ segments, merges_right hop h2 hf2⟩
    | cons x1 rest1 =>
      cases s2 with
      | nil =>
        subst hf2
        exact ⟨_, segmentsLoop_nil_right op _ _ segments, merges_left hop h1 hf1⟩
      | cons x2 rest2 =>
        obtain ⟨x0, s1', s2', f1', f2', hpass1, hpass2, hx0, hflag, hless, heq⟩ :=
          segmentsLoop_cons h1 h2 f1 f2 segments
        obtain ⟨out, hout, hmerges⟩ := ih _ (hless.trans_eq hlen) (hpass1.pairwise h1)
          (hpass2.pairwise h2) (hpass1.bodd_length hf1) (hpass2.bodd_length hf2) _ rfl
        exact ⟨_, by rw [heq, hout, append_assoc], hmerges.step hpass1 hpass2 hx0 hflag⟩

structure Edges (segments : List ℤ) : Prop where
  sorted : segments.Pairwise (· < ·)
  even : segments.length.bodd = false

theorem edges_nil : Edges [] := ⟨List.Pairwise.nil, rfl⟩

theorem combineSegments_spec (hop : op.Lawful) (h1 : Edges s1) (h2 : Edges s2) :
    Edges (combineSegments op s1 s2) ∧ (∀ x ∈ combineSegments op s1 s2, x ∈ s1 ∨ x ∈ s2) ∧
      ∀ x, inside (combineSegments op s1 s2) x = op.combines (inside s1 x) (inside s2 x) := by
  obtain ⟨out, hout, hmerges⟩ := segmentsLoop_spec hop h1.sorted h2.sorted h1.even h2.even []
  have hcombine : combineSegments op s1 s2 = out := hout
  have hstart : op.combines false false = false := Bool.xor_self _
  rw [hcombine]
  refine ⟨⟨hmerges.sorted, hmerges.bodd_length.trans hstart⟩, hmerges.mem, fun x => ?_⟩
  rw [hmerges.inside_eq, hstart, Bool.false_xor, Bool.false_xor, Bool.false_xor]

end Segments

section Spans

variable {op : Operation} {X Y : Set ℤ} {spans1 spans2 done : List Row}
  {segments1 segments2 : List ℤ}

theorem appendSpans_ofRows (rows : List Row) (h : Coalesced (lastValue [] done) rows) :
    (ofRows done).appendSpans rows = ofRows (done ++ rows) := by
  induction rows generalizing done with
  | nil => rw [append_nil]; rfl
  | cons row rest ih =>
    have hguard : done ≠ [] ∨ row.2 ≠ [] := by
      rcases eq_or_ne done [] with rfl | hne
      · exact .inr h.1
      · exact .inl hne
    have happ : (ofRows done).appendSpanOf row.1 row.2 = ofRows (done ++ [row]) := by
      rw [appendSpanOf_ofRows done row.1 row.2 hguard, push, if_neg h.1]
    have hcoal : Coalesced (lastValue [] (done ++ [row])) rest := by
      rw [lastValue_append]
      exact h.2
    have hrest := ih hcoal
    rw [appendSpans, foldl_cons, happ]
    rw [append_assoc, singleton_append] at hrest
    exact hrest

theorem appendSpanOf_of_guard (y : ℤ) (segments : List ℤ) :
    (if !segments.isEmpty || !(ofRows done).isEmpty then (ofRows done).appendSpanOf y segments
      else ofRows done) = ofRows (push [] done y segments) := by
  rw [isEmpty_ofRows]
  split_ifs with hguard
  · refine appendSpanOf_ofRows done y segments ?_
    rw [Bool.or_eq_true, Bool.not_eq_true', Bool.not_eq_true', isEmpty_eq_false_iff,
      isEmpty_eq_false_iff] at hguard
    exact hguard.symm
  · rw [Bool.or_eq_true, Bool.not_eq_true', Bool.not_eq_true', isEmpty_eq_false_iff,
      isEmpty_eq_false_iff, not_or, not_not, not_not] at hguard
    obtain ⟨rfl, rfl⟩ := hguard
    rfl

structure RowWithin (X Y : Set ℤ) (row : Row) : Prop where
  y_mem : row.1 ∈ Y
  edges : Edges row.2
  x_mem : ∀ x ∈ row.2, x ∈ X

structure Remaining (X Y : Set ℤ) (segments : List ℤ) (spans : List Row) : Prop where
  ascending : Ascending spans
  coalesced : Coalesced segments spans
  closed : lastValue segments spans = []
  within : ∀ row ∈ spans, RowWithin X Y row
  edges : Edges segments
  x_mem : ∀ x ∈ segments, x ∈ X

theorem Remaining.tail {y : ℤ} {previous segments : List ℤ} {rest : List Row}
    (h : Remaining X Y previous ((y, segments) :: rest)) : Remaining X Y segments rest := by
  obtain ⟨hfst, hrest⟩ := forall_mem_cons.mp h.within
  exact ⟨(pairwise_cons.mp h.ascending).2, h.coalesced.2, h.closed, hrest, hfst.edges, hfst.x_mem⟩

structure RowPasses (y0 : ℤ) (segments : List ℤ) (spans : List Row) (segments' : List ℤ)
    (spans' : List Row) : Prop where
  later : ∀ row ∈ spans', y0 < row.1
  cases : segments = segments' ∧ spans = spans' ∨ spans = (y0, segments') :: spans'

variable {y0 : ℤ} {segments segments' : List ℤ} {spans spans' : List Row} {row : Row}

section

variable (h : RowPasses y0 segments spans segments' spans')

include h

theorem RowPasses.value_of_le {y : ℤ}
    (hy : y0 ≤ y) : value segments spans y = value segments' spans' y := by
  rcases h.cases with ⟨rfl, rfl⟩ | rfl
  · rfl
  · exact value_cons_of_le hy

theorem RowPasses.value_of_lt {y : ℤ} (hy : y < y0) : value segments spans y = segments := by
  rcases h.cases with ⟨rfl, rfl⟩ | rfl
  · exact StepFunctions.value_of_lt fun row hrow => hy.trans (h.later row hrow)
  · exact value_cons_of_lt hy

theorem RowPasses.mem (hrow : row ∈ spans') : row ∈ spans := by
  rcases h.cases with ⟨-, rfl⟩ | rfl
  · exact hrow
  · exact mem_cons_of_mem _ hrow

theorem RowPasses.remaining
    (hspans : Remaining X Y segments spans) : Remaining X Y segments' spans' := by
  rcases h.cases with ⟨rfl, rfl⟩ | rfl
  · exact hspans
  · exact hspans.tail

end

theorem rowPasses_cons {rest : List Row} (h : Ascending (row :: rest)) (segments : List ℤ) :
    RowPasses row.1 segments (row :: rest) row.2 rest :=
  ⟨(pairwise_cons.mp h).1, .inr rfl⟩

theorem rowPasses_of_lt {rest : List Row} (h : Ascending (row :: rest)) (hlt : y0 < row.1)
    (segments : List ℤ) : RowPasses y0 segments (row :: rest) segments (row :: rest) :=
  ⟨forall_mem_cons.mpr ⟨hlt, fun other hoth =>
    hlt.trans ((pairwise_cons.mp h).1 other hoth)⟩, .inl ⟨rfl, rfl⟩⟩

/-- One turn of the loop over spans comes to the first of the two ordinates, or both of them. -/
theorem spansLoop_cons {row1 row2 : Row} {rest1 rest2 : List Row} (h1 : Ascending (row1 :: rest1))
    (h2 : Ascending (row2 :: rest2)) (segments1 segments2 : List ℤ) (done : List Row) :
    ∃ y0 segments1' spans1' segments2' spans2',
      RowPasses y0 segments1 (row1 :: rest1) segments1' spans1' ∧
      RowPasses y0 segments2 (row2 :: rest2) segments2' spans2' ∧
      (∃ row ∈ row1 :: rest1 ++ row2 :: rest2, row.1 = y0) ∧
      spans1'.length + spans2'.length < (row1 :: rest1).length + (row2 :: rest2).length ∧
      spansLoop op (row1 :: rest1) (row2 :: rest2) segments1 segments2 (ofRows done) =
        spansLoop op spans1' spans2' segments1' segments2'
          (ofRows (push [] done y0 (combineSegments op segments1' segments2'))) := by
  rw [spansLoop]
  rcases lt_trichotomy row1.1 row2.1 with hlt | heq | hlt
  · refine ⟨row1.1, row1.2, rest1, segments2, row2 :: rest2, rowPasses_cons h1 _,
      rowPasses_of_lt h2 hlt _, ⟨row1, by simp, rfl⟩, by simp, ?_⟩
    have hle : row1.1 - row2.1 ≤ 0 := by omega
    have hge : ¬row1.1 - row2.1 ≥ 0 := by omega
    simp only [if_pos hle, if_neg hge, appendSpanOf_of_guard]
  · refine ⟨row2.1, row1.2, rest1, row2.2, rest2, heq ▸ rowPasses_cons h1 _, rowPasses_cons h2 _,
      ⟨row2, by simp, rfl⟩, by simp; omega, ?_⟩
    have hle : row1.1 - row2.1 ≤ 0 := by omega
    have hge : row1.1 - row2.1 ≥ 0 := by omega
    simp only [if_pos hle, if_pos hge, appendSpanOf_of_guard]
  · refine ⟨row2.1, segments1, row1 :: rest1, row2.2, rest2, rowPasses_of_lt h1 hlt _,
      rowPasses_cons h2 _, ⟨row2, by simp, rfl⟩, by simp, ?_⟩
    have hle : ¬row1.1 - row2.1 ≤ 0 := by omega
    have hge : row1.1 - row2.1 ≥ 0 := by omega
    simp only [if_neg hle, if_pos hge, appendSpanOf_of_guard]

structure Done (op : Operation) (X Y : Set ℤ) (segments1 segments2 : List ℤ)
    (spans1 spans2 done : List Row) : Prop where
  ascending : Ascending done
  coalesced : Coalesced [] done
  within : ∀ row ∈ done, RowWithin X Y row
  lastValue_eq : lastValue [] done = combineSegments op segments1 segments2
  lt_left : ∀ row ∈ done, ∀ other ∈ spans1, row.1 < other.1
  lt_right : ∀ row ∈ done, ∀ other ∈ spans2, row.1 < other.1

structure Combined (op : Operation) (X Y : Set ℤ) (segments1 segments2 : List ℤ)
    (spans1 spans2 done final : List Row) : Prop where
  ascending : Ascending final
  coalesced : Coalesced [] final
  closed : lastValue [] final = []
  within : ∀ row ∈ final, RowWithin X Y row
  value_before : ∀ y, (∀ row ∈ spans1, y < row.1) → (∀ row ∈ spans2, y < row.1) →
    value [] final y = value [] done y
  value_after : ∀ y, (∀ row ∈ done, row.1 ≤ y) →
    value [] final y = combineSegments op (value segments1 spans1 y) (value segments2 spans2 y)

theorem combineSegments_nil_right (op : Operation) (segments : List ℤ) :
    combineSegments op segments [] =
      if op.shouldAddRemainingSegmentsFromSpan1 then segments else [] :=
  segmentsLoop_nil_right op segments 0 []

theorem combineSegments_nil_left (op : Operation) (segments : List ℤ) :
    combineSegments op [] segments =
      if op.shouldAddRemainingSegmentsFromSpan2 then segments else [] :=
  segmentsLoop_nil_left op segments 0 []

theorem spansLoop_nil_right (op : Operation) (spans1 : List Row) (segments1 segments2 : List ℤ)
    (result : Shape) : spansLoop op spans1 [] segments1 segments2 result =
      if op.shouldAddRemainingSpansFromShape1 then result.appendSpans spans1 else result := by
  cases spans1 <;> cases hshould : op.shouldAddRemainingSpansFromShape1 <;>
    simp [spansLoop, hshould, appendSpans]

theorem spansLoop_nil_left (op : Operation) (spans2 : List Row) (segments1 segments2 : List ℤ)
    (result : Shape) : spansLoop op [] spans2 segments1 segments2 result =
      if op.shouldAddRemainingSpansFromShape2 then result.appendSpans spans2 else result := by
  cases spans2 <;> cases hshould : op.shouldAddRemainingSpansFromShape2 <;>
    simp [spansLoop, hshould, appendSpans]

/-- What remains of one shape is added to the rows, or nothing is. -/
theorem exists_appendSpans {should : Bool} (h : Remaining X Y segments spans)
    (hasc : Ascending done) (hcoal : Coalesced [] done) (hwithin : ∀ row ∈ done, RowWithin X Y row)
    (hlast : lastValue [] done = if should then segments else [])
    (hlt : ∀ row ∈ done, ∀ other ∈ spans, row.1 < other.1) :
    ∃ final, (if should then (ofRows done).appendSpans spans else ofRows done) = ofRows final ∧
      Remaining X Y [] final ∧
      (∀ y, (∀ row ∈ spans, y < row.1) → value [] final y = value [] done y) ∧
      ∀ y, (∀ row ∈ done, row.1 ≤ y) →
        value [] final y = if should then value segments spans y else [] := by
  split_ifs at hlast ⊢
  · refine ⟨done ++ spans, appendSpans_ofRows spans (hlast ▸ h.coalesced),
      ⟨pairwise_append.mpr ⟨hasc, h.ascending, hlt⟩,
        coalesced_append.mpr ⟨hcoal, hlast ▸ h.coalesced⟩, ?_, fun row hrow => ?_, edges_nil, nofun⟩,
      fun y hy => value_append_of_lt hy, fun y hy => ?_⟩
    · rw [lastValue_append, hlast, h.closed]
    · exact (mem_append.mp hrow).elim (hwithin row) (h.within row)
    · rw [value_append_of_le hy, hlast]
  · refine ⟨done, rfl, ⟨hasc, hcoal, hlast, hwithin, edges_nil, nofun⟩, fun y _ => rfl,
      fun y hy => ?_⟩
    rw [value_of_le hy, hlast]

/-- The loop over spans makes the rows of the combined shape. -/
theorem spansLoop_spec (hop : op.Lawful) (h1 : Remaining X Y segments1 spans1)
    (h2 : Remaining X Y segments2 spans2)
    (hdone : Done op X Y segments1 segments2 spans1 spans2 done) :
    ∃ final, spansLoop op spans1 spans2 segments1 segments2 (ofRows done) = ofRows final ∧
      Combined op X Y segments1 segments2 spans1 spans2 done final := by
  induction hlen : spans1.length + spans2.length using Nat.strong_induction_on
    generalizing spans1 spans2 segments1 segments2 done with
  | h n ih =>
    cases spans1 with
    | nil =>
      obtain rfl : segments1 = [] := h1.closed
      have hlast := hdone.lastValue_eq
      rw [combineSegments_nil_left] at hlast
      obtain ⟨final, hfinal, hrows, hbefore, hafter⟩ := exists_appendSpans h2 hdone.ascending
        hdone.coalesced hdone.within hlast hdone.lt_right
      refine ⟨final, ?_, { hrows with
        value_before := fun y _ hy => hbefore y hy, value_after := fun y hy => ?_ }⟩
      · rw [spansLoop_nil_left, hop.spans2, hfinal]
      · rw [hafter y hy, value_nil, combineSegments_nil_left]
    | cons row1 rest1 =>
      cases spans2 with
      | nil =>
        obtain rfl : segments2 = [] := h2.closed
        have hlast := hdone.lastValue_eq
        rw [combineSegments_nil_right] at hlast
        obtain ⟨final, hfinal, hrows, hbefore, hafter⟩ := exists_appendSpans h1 hdone.ascending
          hdone.coalesced hdone.within hlast hdone.lt_left
        refine ⟨final, ?_, { hrows with
          value_before := fun y hy _ => hbefore y hy, value_after := fun y hy => ?_ }⟩
        · rw [spansLoop_nil_right, hop.spans1, hfinal]
        · rw [hafter y hy, value_nil, combineSegments_nil_right]
      | cons row2 rest2 =>
        obtain ⟨_, segments1', spans1', segments2', spans2', hpass1, hpass2, ⟨row0, hrow0, rfl⟩,
          hless, heq⟩ := spansLoop_cons h1.ascending h2.ascending segments1 segments2 done
        have h1' := hpass1.remaining h1
        have h2' := hpass2.remaining h2
        obtain ⟨hedges, hmem, -⟩ := combineSegments_spec hop h1'.edges h2'.edges
        have hlt : ∀ row ∈ done, row.1 < row0.1 := fun row hrow =>
          (mem_append.mp hrow0).elim (hdone.lt_left row hrow row0) (hdone.lt_right row hrow row0)
        have hy0 : row0.1 ∈ Y := (mem_append.mp hrow0).elim (fun h => (h1.within row0 h).y_mem)
          fun h => (h2.within row0 h).y_mem
        set done' := push [] done row0.1 (combineSegments op segments1' segments2')
        have hle : ∀ row ∈ done', row.1 ≤ row0.1 := by
          intro row hrow
          rcases mem_push hrow with hmem | rfl
          · exact (hlt row hmem).le
          · exact le_rfl
        have hdone' : Done op X Y segments1' segments2' spans1' spans2' done' := by
          refine ⟨ascending_push hdone.ascending hlt _ _, coalesced_push hdone.coalesced _ _,
            fun row hrow => ?_, lastValue_push _ _ _ _,
            fun row hrow other hoth => (hle row hrow).trans_lt (hpass1.later other hoth),
            fun row hrow other hoth => (hle row hrow).trans_lt (hpass2.later other hoth)⟩
          rcases mem_push hrow with hrow | rfl
          · exact hdone.within row hrow
          · exact ⟨hy0, hedges, fun x hx => (hmem x hx).elim (h1'.x_mem x) (h2'.x_mem x)⟩
        obtain ⟨final, hfinal, hcomb⟩ := ih _ (hless.trans_eq hlen) h1' h2' hdone' rfl
        refine ⟨final, heq.trans hfinal, { hcomb with
          value_before := fun y hy1 hy2 => ?_, value_after := fun y hy => ?_ }⟩
        · have hy : y < row0.1 := (mem_append.mp hrow0).elim (hy1 row0) (hy2 row0)
          rw [hcomb.value_before y (fun row hrow => hy1 row (hpass1.mem hrow))
            fun row hrow => hy2 row (hpass2.mem hrow), value_push hlt, if_pos hy]
        · rcases lt_or_ge y row0.1 with hlow | hhigh
          · rw [hcomb.value_before y (fun row hrow => hlow.trans (hpass1.later row hrow))
              fun row hrow => hlow.trans (hpass2.later row hrow), value_push hlt, if_pos hlow,
              value_of_le hy, hdone.lastValue_eq, hpass1.value_of_lt hlow, hpass2.value_of_lt hlow]
          · rw [hcomb.value_after y fun row hrow => (hle row hrow).trans hhigh,
              hpass1.value_of_le hhigh, hpass2.value_of_le hhigh]

def Canonical (X Y : Set ℤ) (rows : List Row) : Prop := Remaining X Y [] rows

def covers (rows : List Row) (x y : ℤ) : Bool := inside (value [] rows y) x

theorem Canonical.edges_value {rows : List Row} (h : Canonical X Y rows) (y : ℤ) :
    Edges (value [] rows y) := by
  rcases value_mem [] rows y with hnil | ⟨row, hrow, heq⟩
  · rw [hnil]
    exact edges_nil
  · rw [← heq]
    exact (h.within row hrow).edges

variable {rows1 rows2 : List Row}

/-- The rows of a shape are determined by its points. -/
theorem Canonical.eq_of_covers {X' Y' : Set ℤ} (h1 : Canonical X Y rows1) (h2 : Canonical X' Y' rows2)
    (hcov : ∀ x y, covers rows1 x y = covers rows2 x y) : rows1 = rows2 := by
  refine eq_of_value_eq h1.ascending h2.ascending h1.coalesced h2.coalesced fun y => ?_
  exact eq_of_inside_eq (h1.edges_value y).sorted (h2.edges_value y).sorted fun x => hcov x y

/-- The combined shape has the points that the set operation asks for. -/
theorem shapeOperation_spec (hop : op.Lawful) (h1 : Canonical X Y rows1) (h2 : Canonical X Y rows2)
    (hsimple : op.trySimpleOperation (ofRows rows1) (ofRows rows2) = none) :
    ∃ rows, shapeOperation op (ofRows rows1) (ofRows rows2) = ofRows rows ∧ Canonical X Y rows ∧
      ∀ x y, covers rows x y = op.combines (covers rows1 x y) (covers rows2 x y) := by
  have hdone : Done op X Y [] [] rows1 rows2 [] := by
    refine ⟨List.Pairwise.nil, trivial, nofun, ?_, nofun, nofun⟩
    rw [combineSegments_nil_right]
    split_ifs <;> rfl
  obtain ⟨rows, hrows, hcomb⟩ := spansLoop_spec hop h1 h2 hdone
  refine ⟨rows, ?_, { hcomb with edges := edges_nil, x_mem := nofun }, fun x y => ?_⟩
  · unfold shapeOperation
    rw [hsimple, rows_ofRows, rows_ofRows]
    exact hrows
  · unfold covers
    rw [hcomb.value_after y nofun]
    exact (combineSegments_spec hop (h1.edges_value y) (h2.edges_value y)).2.2 x

theorem lawful_unionOperation : unionOperation.Lawful :=
  ⟨by decide, by decide, rfl, rfl⟩

theorem lawful_intersectOperation : intersectOperation.Lawful :=
  ⟨by decide, by decide, rfl, rfl⟩

theorem lawful_subtractOperation : subtractOperation.Lawful :=
  ⟨by decide, by decide, rfl, rfl⟩

section

variable (h1 : Canonical X Y rows1) (h2 : Canonical X Y rows2)

include h1 h2

theorem unionShapes_spec :
    ∃ rows, unionShapes (ofRows rows1) (ofRows rows2) = ofRows rows ∧ Canonical X Y rows ∧
      ∀ x y, covers rows x y = (covers rows1 x y || covers rows2 x y) := by
  cases rows1 with
  | nil => exact ⟨rows2, rfl, h2, fun x y => rfl⟩
  | cons row1 rest1 =>
    obtain ⟨rows, hrows, hcanon, hcov⟩ := shapeOperation_spec lawful_unionOperation h1 h2 rfl
    refine ⟨rows, hrows, hcanon, fun x y => ?_⟩
    rw [hcov]
    cases covers (row1 :: rest1) x y <;> cases covers rows2 x y <;> rfl

theorem intersectShapes_spec :
    ∃ rows, intersectShapes (ofRows rows1) (ofRows rows2) = ofRows rows ∧ Canonical X Y rows ∧
      ∀ x y, covers rows x y = (covers rows1 x y && covers rows2 x y) := by
  obtain ⟨rows, hrows, hcanon, hcov⟩ :=
    shapeOperation_spec lawful_intersectOperation h1 h2 rfl
  refine ⟨rows, hrows, hcanon, fun x y => ?_⟩
  rw [hcov]
  cases covers rows1 x y <;> cases covers rows2 x y <;> rfl

theorem subtractShapes_spec :
    ∃ rows, subtractShapes (ofRows rows1) (ofRows rows2) = ofRows rows ∧ Canonical X Y rows ∧
      ∀ x y, covers rows x y = (covers rows1 x y && !covers rows2 x y) := by
  obtain ⟨rows, hrows, hcanon, hcov⟩ :=
    shapeOperation_spec lawful_subtractOperation h1 h2 rfl
  refine ⟨rows, hrows, hcanon, fun x y => ?_⟩
  rw [hcov]
  cases covers rows1 x y <;> cases covers rows2 x y <;> rfl

end

end Spans

end Shape

end WebKit.Graphics
