import WebKit.Text.SequenceDecoding

/-!
The decoder of UTF-8 text over successive calls. The 8-bit routine and the 16-bit routine together do
what the 16-bit routine does alone. A call on a whole text gives the reference decoding; calls on the
chunks of a text give it, however the text is cut, just for the texts in which no byte is lost that
matters.
-/

namespace WebKit.TextCodecUTF8

open List UTF8 Unicode

theorem not_ascii_of_count {byte : UInt8} (h : nonASCIISequenceLength byte ≠ 0) :
    ¬ isASCII byte := by
  intro hascii
  rw [nonASCIISequenceLength_eq, if_pos (isASCII_iff.mp hascii)] at h
  exact h rfl

section Widening

variable (word : MachineWord) (sourceEnd : ℕ) (flush : Bool)

theorem appendCharacter_of_le {character : ℕ} (h : character ≤ 0xFF) :
    appendCharacter character = [(UInt8.ofNat character).toUInt16] := by
  rw [appendCharacter, if_pos (by omega)]
  have hunit : UInt16.ofNat character = (UInt8.ofNat character).toUInt16 := by
    rw [eq_ofNat16_iff (by omega), UInt8.toNat_toUInt16, UInt8.toNat_ofNat']
    omega
  rw [hunit]

/-- The 16-bit routine gives what the 8-bit routine gives, and where that one leaves, it gives what it
gives when it goes on from there. -/
def Widens (narrow : Scan8) (onward wide : Scan16) : Prop :=
  (narrow.upConvert = false → wide =
    ⟨narrow.written.map (·.toUInt16), narrow.partialSequence, narrow.source, narrow.sawError⟩) ∧
  (narrow.upConvert = true → wide =
    ⟨narrow.written.map (·.toUInt16) ++ onward.written, onward.partialSequence, onward.source,
      narrow.sawError || onward.sawError⟩)

theorem Widens.after {narrow : Scan8} {onward wide : Scan16} (h : Widens narrow onward wide)
    (characters : List UInt8) (sawError : Bool) :
    Widens (narrow.after characters sawError) onward
      (wide.after (characters.map (·.toUInt16)) sawError) := by
  refine ⟨fun hstay => ?_, fun hleave => ?_⟩
  · rw [h.1 hstay]
    simp only [Scan16.after, Scan8.after, map_append]
  · rw [h.2 hleave]
    simp only [Scan16.after, Scan8.after, map_append, append_assoc, Bool.or_assoc]

/-- Leaving at once is no difference. -/
theorem widens_leave (buffer source : List UInt8) (onward : Scan16) :
    Widens ⟨[], buffer, source, false, true⟩ onward onward :=
  ⟨fun h => absurd h Bool.true_eq_false.mp, fun _ => rfl⟩

theorem scan8_upConvert (source : List UInt8) (h : (scan8 word sourceEnd false source).upConvert) :
    (scan8 word sourceEnd false source).partialSequence = [] := by
  generalize false = stopOnError at h ⊢
  fun_induction scan8 word sourceEnd stopOnError source
  case case1 => rfl
  case case2 byte rest hascii copied ih => exact ih h
  case case3 byte rest hascii hnext => rfl
  case case4 byte rest hascii hnext => cases h
  case case5 byte rest hascii count character hnext hwide => rfl
  case case6 byte rest hascii count character hnext hnarrow ih => exact ih h

theorem widens_scan (source : List UInt8) : Widens (scan8 word sourceEnd false source)
      (scan16 word sourceEnd false (scan8 word sourceEnd false source).source)
      (scan16 word sourceEnd false source) := by
  generalize hstop : false = stopOnError
  fun_induction scan8 word sourceEnd stopOnError source
  case case1 =>
    rw [scan16]
    exact ⟨fun _ => rfl, fun h => absurd h nofun⟩
  case case2 byte rest hascii copied ih =>
    conv => arg 3; rw [scan16]
    rw [if_pos hascii]
    exact ih.after copied.1 false
  case case3 byte rest hascii hnext =>
    subst hstop
    refine ⟨fun h => absurd h Bool.true_eq_false.mp, fun _ => ?_⟩
    rw [scan16, if_neg hascii, hnext]
    rfl
  case case4 byte rest hascii hnext =>
    refine ⟨fun _ => ?_, fun h => absurd h nofun⟩
    rw [scan16, if_neg hascii, hnext]
    rfl
  case case5 byte rest hascii count character hnext hwide => exact widens_leave _ _ _
  case case6 byte rest hascii count character hnext hnarrow ih =>
    conv => arg 3; rw [scan16]
    rw [if_neg hascii, hnext]
    dsimp only
    rw [appendCharacter_of_le (not_lt.mp hnarrow)]
    exact ih.after [UInt8.ofNat character] false

variable {source buffer : List UInt8}

/-- Filling the buffer first makes no difference. -/
theorem handlePartialSequence16_filled {b0 : UInt8} {rest : List UInt8}
    (hascii : ¬ isASCII b0) (hcnt : nonASCIISequenceLength b0 ≠ 0)
    (henough : ¬ source.length < nonASCIISequenceLength b0 - (b0 :: rest).length) :
    handlePartialSequence16 flush false
        (b0 :: rest ++ source.take (nonASCIISequenceLength b0 - (b0 :: rest).length))
        (source.drop (nonASCIISequenceLength b0 - (b0 :: rest).length)) =
      handlePartialSequence16 flush false (b0 :: rest) source := by
  have hfilled := length_filled (not_lt.mp henough)
  generalize hmissing : nonASCIISequenceLength b0 - (b0 :: rest).length = missing at *
  have hzero : nonASCIISequenceLength b0 - (b0 :: rest ++ source.take missing).length = 0 := by omega
  rw [cons_append] at hzero hfilled ⊢
  conv_rhs => rw [handlePartialSequence16]
  rw [handlePartialSequence16]
  simp only [if_neg hascii, if_neg hcnt, hzero, hmissing, if_neg henough, Nat.not_lt_zero, if_false,
    take_zero, append_nil, drop_zero, cons_append]

/-- What the 8-bit routine makes of the buffer, and what the 16-bit routine makes of it. -/
theorem handle_widens (hpend : Pending buffer) (source : List UInt8) :
    ((handlePartialSequence8 flush buffer source).upConvert = false →
      handlePartialSequence16 flush false buffer source =
        ⟨(handlePartialSequence8 flush buffer source).written.map (·.toUInt16),
          (handlePartialSequence8 flush buffer source).partialSequence,
          (handlePartialSequence8 flush buffer source).source, false⟩) ∧
    ((handlePartialSequence8 flush buffer source).upConvert →
      handlePartialSequence16 flush false buffer source = handlePartialSequence16 flush false
          (handlePartialSequence8 flush buffer source).partialSequence
          (handlePartialSequence8 flush buffer source).source) := by
  cases buffer with
  | nil =>
    rw [handlePartialSequence8, handlePartialSequence16]
    exact ⟨fun _ => rfl, fun h => absurd h Bool.false_ne_true⟩
  | cons b0 rest =>
    have hcnt : nonASCIISequenceLength b0 ≠ 0 := Nat.ne_zero_of_lt hpend
    have hascii := not_ascii_of_count hcnt
    rw [handlePartialSequence8]
    simp only [if_neg hascii, if_neg hcnt]
    split_ifs with hfew hflush
    · exact ⟨fun h => h.elim, fun _ => rfl⟩
    · refine ⟨fun _ => ?_, fun h => h.elim⟩
      rw [handlePartialSequence16]
      simp only [if_neg hascii, if_neg hcnt, if_pos hfew, if_neg hflush]
      rfl
    · have hfilled := length_filled (not_lt.mp hfew)
      have hfill := handlePartialSequence16_filled flush hascii hcnt hfew
      have hwhole : (b0 :: rest ++ source.take (nonASCIISequenceLength b0 -
          (b0 :: rest).length)).length - nonASCIISequenceLength b0 = 0 := by
        have hlen : (b0 :: rest).length < nonASCIISequenceLength b0 := hpend
        omega
      split
      · exact ⟨fun h => by simp at h, fun _ => hfill.symm⟩
      · next character hdec =>
        rw [hwhole, take_zero, handlePartialSequence8]
        split_ifs with hwide
        · exact ⟨fun h => by simp at h, fun _ => hfill.symm⟩
        · refine ⟨fun _ => ?_, fun h => by simp at h⟩
          rw [handlePartialSequence16]
          simp only [if_neg hascii, if_neg hcnt, if_neg hfew, hdec, hwhole, take_zero,
            handlePartialSequence16, appendCharacter_of_le (not_lt.mp hwide)]
          rfl

def finish16 (scan : Scan16) : Scan16 :=
  if flush = true ∧ scan.partialSequence ≠ [] then
    (decode16 word sourceEnd flush false scan.partialSequence scan.source).after scan.written
      scan.sawError
  else scan

theorem finish16_after (scan : Scan16) (units : List UInt16) (saw : Bool) :
    finish16 word sourceEnd flush (scan.after units saw) =
      (finish16 word sourceEnd flush scan).after units saw := by
  rw [finish16, finish16]
  split_ifs with hagain honce honce
  · simp [Scan16.after, Bool.or_assoc]
  · exact absurd hagain honce
  · exact absurd honce hagain
  · rfl

theorem decode16_of_kept
    (h : (handlePartialSequence16 flush false buffer source).partialSequence ≠ []) :
    decode16 word sourceEnd flush false buffer source =
      handlePartialSequence16 flush false buffer source := by
  rw [decode16]
  exact if_pos h

theorem decode16_of_empty
    (h : (handlePartialSequence16 flush false buffer source).partialSequence = []) :
    decode16 word sourceEnd flush false buffer source =
      (finish16 word sourceEnd flush (scan16 word sourceEnd false
        (handlePartialSequence16 flush false buffer source).source)).after
          (handlePartialSequence16 flush false buffer source).written
          (handlePartialSequence16 flush false buffer source).sawError := by
  rw [decode16]
  exact if_neg (not_not.mpr h)

theorem decode16_nil (source : List UInt8) : decode16 word sourceEnd flush false [] source =
    finish16 word sourceEnd flush (scan16 word sourceEnd false source) := by
  have hnil : handlePartialSequence16 flush false [] source = ⟨[], [], source, false⟩ := by
    rw [handlePartialSequence16]
  rw [decode16_of_empty word sourceEnd flush (by rw [hnil]), hnil]
  rfl

/-- The 16-bit routine does what both routines do. -/
theorem widens_decode (hpend : Pending buffer) (source : List UInt8) :
    Widens (decode8 word sourceEnd flush false buffer source)
      (decode16 word sourceEnd flush false
        (decode8 word sourceEnd flush false buffer source).partialSequence
        (decode8 word sourceEnd flush false buffer source).source)
      (decode16 word sourceEnd flush false buffer source) := by
  induction hlen : source.length using Nat.strong_induction_on
    generalizing buffer source with
  | h n ih =>
    obtain ⟨hsame, hleave⟩ := handle_widens flush hpend source
    rw [decode8]
    dsimp only
    split_ifs with hup hkept hagain
    · have heq : decode16 word sourceEnd flush false buffer source =
          decode16 word sourceEnd flush false
            (handlePartialSequence8 flush buffer source).partialSequence
            (handlePartialSequence8 flush buffer source).source := by
        rw [decode16, hleave hup]
        conv_rhs => rw [decode16]
      rw [heq]
      exact widens_leave _ _ _
    · have hhandled := hsame (Bool.eq_false_of_not_eq_true hup)
      refine ⟨fun _ => ?_, fun h => absurd h nofun⟩
      rw [decode16_of_kept word sourceEnd flush (by rw [hhandled]; exact hkept), hhandled]
    all_goals
      have hhandled := hsame (Bool.eq_false_of_not_eq_true hup)
      have hempty := not_not.mp hkept
      have hwide := decode16_of_empty word sourceEnd flush (by rw [hhandled]; exact hempty)
      rw [hhandled] at hwide
      rw [hwide]
      have hscan := widens_scan word sourceEnd (handlePartialSequence8 flush buffer source).source
    · have hpend' := (reads_scan16 word sourceEnd
        (handlePartialSequence8 flush buffer source).source []).2.1
      obtain ⟨hsrc, hend⟩ := scan8_partialSequence _ _ _ _ hagain.2.2
      have hpos := length_pos_of_ne_nil hsrc
      have hle := handlePartialSequence8_source flush buffer source
      rw [hscan.1 hagain.1] at hpend' ⊢
      rw [finish16, if_pos hagain.2]
      refine Widens.after (Widens.after (ih _ ?_ hpend' _ rfl) _ _) _ _
      rw [hend, length_nil]
      omega
    · apply Widens.after
      cases hnarrow : (scan8 word sourceEnd false
          (handlePartialSequence8 flush buffer source).source).upConvert with
      | false =>
        refine ⟨fun _ => ?_, fun h => absurd (hnarrow.symm.trans h) nofun⟩
        rw [hscan.1 hnarrow, finish16, if_neg fun h => hagain ⟨hnarrow, h⟩]
      | true =>
        have hnone := scan8_upConvert word sourceEnd _ hnarrow
        refine ⟨fun h => absurd (h.symm.trans hnarrow) nofun, fun _ => ?_⟩
        have honward := decode16_nil word sourceEnd flush (scan8 word sourceEnd false
          (handlePartialSequence8 flush buffer source).source).source
        rw [← hnone] at honward
        rw [hscan.2 hnarrow]
        exact (finish16_after word sourceEnd flush _ _ _).trans
          (congrArg (Scan16.after · _ _) honward.symm)

/-- A call does what the 16-bit routine does. -/
theorem decode_eq (hpend : Pending buffer) (chunk : Chunk) : decode word buffer chunk flush false =
      ⟨(decode16 word (chunk.address + chunk.bytes.length) flush false buffer chunk.bytes).written,
        (decode16 word (chunk.address + chunk.bytes.length) flush false buffer
          chunk.bytes).partialSequence,
        (decode16 word (chunk.address + chunk.bytes.length) flush false buffer
          chunk.bytes).sawError⟩ := by
  obtain ⟨hstay, hleave⟩ :=
    widens_decode word (chunk.address + chunk.bytes.length) flush hpend chunk.bytes
  rw [decode]
  split_ifs with hup
  · rw [hleave hup]
  · rw [hstay (Bool.eq_false_of_not_eq_true hup)]

end Widening

section Calls

variable (word : MachineWord) (sourceEnd : ℕ) (flush : Bool)
  {buffer source future bytes : List UInt8}

theorem Pending.ready (hpend : Pending buffer) (hstand : Stands (source ++ future) buffer bytes)
    (hharm : Harmless (bytes ++ (source ++ future))) :
    Ready future buffer source bytes := by
  cases buffer with
  | nil => exact ⟨hstand, Nat.zero_le _, hharm, fun h => by simp at h⟩
  | cons b0 rest =>
    have hlen : (b0 :: rest).length < nonASCIISequenceLength b0 := hpend
    have hbds := nonASCIISequenceLength_bounds (Nat.ne_zero_of_lt hlen)
    refine ⟨hstand, by omega, hharm, fun hthree => .inl ⟨b0, rfl, ?_⟩⟩
    exact isFour_of_length (by omega)

/-- The bytes kept at the end of the text are worked off by the second turn. -/
theorem reads_decode16_flush (hpend : Pending buffer) :
    (decode16 word sourceEnd true false buffer []).partialSequence = [] ∧
      Reads buffer (decode16 word sourceEnd true false buffer []).written
        (decode16 word sourceEnd true false buffer []).sawError [] := by
  have hlen : buffer.length ≤ 3 := by
    cases buffer with
    | nil => exact Nat.zero_le _
    | cons b0 rest =>
      have hlen : (b0 :: rest).length < nonASCIISequenceLength b0 := hpend
      have hbds := nonASCIISequenceLength_bounds (Nat.ne_zero_of_lt hlen)
      omega
  have hready : Ready [] buffer [] buffer :=
    hpend.ready (.same _) (.of_length (by rw [append_nil, append_nil]; exact hlen))
  have hhandled : Handled true (buffer ++ ([] ++ [])) []
      (handlePartialSequence16 true false buffer []) :=
    handled_handlePartialSequence16 (fun _ => rfl) buffer hready
  rcases hhandled with ⟨hempty, hreads⟩ | ⟨hflush, -⟩
  · have hsrc := eq_nil_of_length_eq_zero
        (Nat.le_zero.mp (handlePartialSequence16_source true false buffer []))
    have hend : finish16 word sourceEnd true ⟨[], [], [], false⟩ = ⟨[], [], [], false⟩ :=
      if_neg fun h => h.2 rfl
    rw [decode16_of_empty word sourceEnd true hempty, hsrc, scan16, hend]
    rw [hsrc, append_nil, append_nil] at hreads
    exact ⟨rfl, hreads.trans (.done [])⟩
  · exact absurd hflush Bool.true_eq_false.mp

/-- What a call reads: the bytes in the buffer and those of the chunk, up to what is kept. -/
theorem reads_decode16 (hflush : flush → future = [])
    (hhandled : Handled flush (bytes ++ (source ++ future)) future
      (handlePartialSequence16 flush false buffer source)) :
    ∃ kept, Stands future (decode16 word sourceEnd flush false buffer source).partialSequence
        kept ∧
      Pending (decode16 word sourceEnd flush false buffer source).partialSequence ∧
      (flush → kept = []) ∧
      Reads (bytes ++ (source ++ future))
        (decode16 word sourceEnd flush false buffer source).written
        (decode16 word sourceEnd flush false buffer source).sawError (kept ++ future) := by
  rcases hhandled with ⟨hempty, hreads⟩ | ⟨hnot, hkept, hpend, kept, hstand, hreads⟩
  · obtain ⟨hscan, hpend, hend⟩ := reads_scan16 word sourceEnd
      (handlePartialSequence16 flush false buffer source).source future
    rw [decode16_of_empty word sourceEnd flush hempty]
    by_cases hagain : flush ∧ (scan16 word sourceEnd false
        (handlePartialSequence16 flush false buffer source).source).partialSequence ≠ []
    · obtain ⟨rfl, hpartial⟩ := hagain
      obtain rfl := hflush rfl
      obtain ⟨hlast, hturn⟩ := reads_decode16_flush word sourceEnd hpend
      simp only [append_nil] at hreads hscan ⊢
      rw [finish16, if_pos ⟨rfl, hpartial⟩, hend]
      refine ⟨[], ?_, ?_, fun _ => rfl, hreads.trans (hscan.trans hturn)⟩
      · exact hlast.symm ▸ Stands.same []
      · exact hlast.symm ▸ trivial
    · rw [finish16, if_neg hagain]
      refine ⟨_, .same _, hpend, fun hflushed => ?_, hreads.trans hscan⟩
      by_contra hpartial
      exact hagain ⟨hflushed, hpartial⟩
  · rw [decode16_of_kept word sourceEnd flush hkept]
    exact ⟨kept, hstand, hpend, fun h => absurd (h.symm.trans hnot) Bool.true_eq_false.mp, hreads⟩

theorem reads_decode (hpend : Pending buffer) (chunk : Chunk) (hflush : flush → future = [])
    (hstand : Stands (chunk.bytes ++ future) buffer bytes)
    (hharm : Harmless (bytes ++ (chunk.bytes ++ future))) :
    ∃ kept, Stands future (decode word buffer chunk flush false).partialSequence kept ∧
      Pending (decode word buffer chunk flush false).partialSequence ∧
      (flush → kept = []) ∧
      Reads (bytes ++ (chunk.bytes ++ future))
        (decode word buffer chunk flush false).units
        (decode word buffer chunk flush false).sawError (kept ++ future) := by
  rw [decode_eq word flush hpend]
  exact reads_decode16 word _ flush hflush
    (handled_handlePartialSequence16 hflush buffer (hpend.ready hstand hharm))

/-- A call on a whole text gives the reference. -/
theorem decodesTo_decode (chunk : Chunk) :
    DecodesTo chunk.bytes (decode word [] chunk true false).units
      (decode word [] chunk true false).sawError := by
  have hhandled : Handled true ([] ++ (chunk.bytes ++ [])) []
      (handlePartialSequence16 true false [] chunk.bytes) := by
    rw [handlePartialSequence16]
    exact .inl ⟨rfl, .done _⟩
  have hpend : Pending [] := trivial
  obtain ⟨kept, -, -, hkept, hreads⟩ := reads_decode16 word
    (chunk.address + chunk.bytes.length) true (fun _ => rfl) hhandled
  rw [decode_eq word true hpend]
  rw [hkept rfl, append_nil, nil_append, append_nil] at hreads
  exact hreads

/-- Successive calls on a text without harm give the reference. -/
theorem decodesTo_decodeChunks (chunks : List Chunk) (last : Chunk) (hpend : Pending buffer)
    (hstand : Stands (chunks.flatMap Chunk.bytes ++ last.bytes) buffer bytes)
    (hharm : Harmless (bytes ++ (chunks.flatMap Chunk.bytes ++ last.bytes))) :
    DecodesTo (bytes ++ (chunks.flatMap Chunk.bytes ++ last.bytes))
      (decodeChunks word buffer chunks last).units
      (decodeChunks word buffer chunks last).sawError := by
  induction chunks generalizing buffer bytes with
  | nil =>
    rw [flatMap_nil, nil_append] at hstand hharm ⊢
    rw [← append_nil last.bytes] at hstand hharm
    obtain ⟨kept, -, -, hkept, hreads⟩ :=
      reads_decode word true hpend last (fun _ => rfl) hstand hharm
    rw [hkept rfl, append_nil] at hreads
    exact hreads
  | cons chunk chunks ih =>
    rw [flatMap_cons, append_assoc] at hstand hharm ⊢
    obtain ⟨kept, hstand', hpend', -, hreads⟩ := reads_decode word false hpend chunk
      (fun h => absurd h nofun) hstand hharm
    obtain ⟨read, hread⟩ := hreads.exists_append
    rw [hread] at hharm
    exact hreads.trans (ih hpend' hstand' (hharm.of_append read))

end Calls

section Lost

variable (word : MachineWord) {b0 b1 b2 b3 : UInt8} {before after : List UInt8}

theorem isFour_not_ascii (h : IsFour b0) : ¬ isASCII b0 := by
  unfold IsFour at h
  rw [isASCII_iff]
  omega

variable {c : Char}

/-- The bytes of a sequence behind the first one continue it. -/
theorem isTail_of_utf8 {first : UInt8} {tail : List UInt8} (h : utf8 c = first :: tail) :
    ∀ byte ∈ tail, IsTail byte := by
  rcases utf8_cases c with ⟨a, hc⟩ | ⟨a, b, hc⟩ | ⟨a, b, d, hc⟩ | ⟨a, b, d, e, hc⟩
  all_goals obtain ⟨rfl, rfl⟩ := cons_eq_cons.mp (hc.symm.trans h)
  · simp
  · simpa using (utf8_two_iff.mp hc).2.2.1
  · have hthree := utf8_three_iff.mp hc
    simpa using ⟨hthree.2.1, hthree.2.2.1⟩
  · have hfour := utf8_four_iff.mp hc
    simpa using ⟨hfour.2.1, hfour.2.2.1, hfour.2.2.2.1⟩

/-- Bytes at the front among which there is no first byte of four stand before such a byte. -/
theorem exists_before {front rest : List UInt8} (h : front ++ rest = before ++ b0 :: after)
    (hfront : b0 ∉ front) : ∃ middle, rest = middle ++ b0 :: after := by
  rcases append_eq_append_iff.mp h with ⟨middle, -, hrest⟩ | ⟨middle, hbefore, hrest⟩
  · exact ⟨middle, hrest⟩
  · cases middle with
    | nil => exact ⟨[], hrest.symm⟩
    | cons first middle =>
      obtain ⟨rfl, -⟩ := cons_eq_cons.mp hrest
      rw [hbefore] at hfront
      exact absurd (by simp) hfront

theorem nonASCIISequenceLength_of_four (hfour : IsFour b0) : nonASCIISequenceLength b0 = 4 := by
  unfold IsFour at hfour
  rw [nonASCIISequenceLength_eq, if_neg (by omega), if_neg (by omega), if_neg (by omega),
    if_pos (by omega)]

theorem nextSequence_incomplete (hfour : IsFour b0) : nextSequence [b0, b1, b2] = .incomplete := by
  rw [nextSequence, getD_cons_zero, nonASCIISequenceLength_of_four hfour]
  rfl

/-- Three bytes at the end of a source that begin with a first byte of four are kept. -/
theorem scan16_keeps (sourceEnd : ℕ) (hfour : IsFour b0) :
    (scan16 word sourceEnd false (before ++ [b0, b1, b2])).partialSequence = [b0, b1, b2] := by
  generalize hsrc : before ++ [b0, b1, b2] = source
  generalize hstop : false = stopOnError
  revert before
  fun_induction scan16 word sourceEnd stopOnError source
  case case1 =>
    intro before hsrc
    simp at hsrc
  case case2 byte rest hascii copied ih =>
    intro before hsrc
    have happ := copyASCII_append word sourceEnd (byte :: rest)
    obtain ⟨middle, hmiddle⟩ := exists_before (happ.trans hsrc.symm)
      fun hmem => isFour_not_ascii hfour (isASCII_copyASCII word sourceEnd (byte :: rest) b0 hmem)
    exact ih hmiddle.symm
  case case3 byte rest hascii hnext htrue => cases hstop.trans htrue
  case case4 byte rest hascii hnext hfalse ih =>
    intro before hsrc
    cases before with
    | nil =>
      rw [← hsrc, nil_append, nextSequence_incomplete hfour] at hnext
      cases hnext
    | cons first before =>
      obtain ⟨-, hrest⟩ := cons_eq_cons.mp hsrc
      exact ih hrest
  case case5 byte rest hascii hnext =>
    intro before hsrc
    have hshort := shows_nextSequence rest hascii
    rw [hnext] at hshort
    have hshort : (byte :: rest).length < nonASCIISequenceLength byte := hshort
    have hbds := nonASCIISequenceLength_bounds (Nat.ne_zero_of_lt hshort)
    have hlen := congrArg List.length hsrc
    obtain rfl : before = [] := by
      apply eq_nil_of_length_eq_zero
      simp only [length_append, length_cons, length_nil] at hlen hshort
      omega
    exact hsrc.symm
  case case6 byte rest hascii count character hnext ih =>
    intro before hsrc
    cases before with
    | nil =>
      rw [← hsrc, nil_append, nextSequence_incomplete hfour] at hnext
      cases hnext
    | cons first before =>
      obtain ⟨-, hrest⟩ := cons_eq_cons.mp hsrc
      have hshows := shows_nextSequence rest hascii
      rw [hnext] at hshows
      obtain ⟨c, -, hc⟩ := hshows
      obtain ⟨head, tail, hutf8⟩ := exists_cons_of_ne_nil (utf8_ne_nil c)
      rw [hutf8, cons_append, tail_cons] at hc
      obtain ⟨middle, hmiddle⟩ := exists_before ((cons_eq_cons.mp hc).2.symm.trans hrest.symm) fun hmem => by
        have htail := isTail_of_utf8 hutf8 b0 hmem
        unfold IsFour at hfour
        unfold IsTail at htail
        omega
      exact ih hmiddle.symm

/-- One turn over the buffer, with the sequence complete after filling it up. -/
theorem handle_turn {flush : Bool} {first : UInt8} {rest source : List UInt8} {missing : ℕ}
    (hcnt : nonASCIISequenceLength first = (first :: rest).length + missing)
    (henough : missing ≤ source.length) :
    handlePartialSequence16 flush false (first :: rest) source =
      match decodeNonASCIISequence (first :: rest ++ source.take missing)
          (nonASCIISequenceLength first) with
      | none => (handlePartialSequence16 flush false (rest ++ source.take missing)
          (source.drop missing)).after [replacement] true
      | some character => (handlePartialSequence16 flush false [] (source.drop missing)).after
          (appendCharacter character) false := by
  have hne : nonASCIISequenceLength first ≠ 0 := by
    rw [hcnt, length_cons]
    omega
  have hmissing : nonASCIISequenceLength first - (first :: rest).length = missing := by omega
  have hwhole : (first :: rest ++ source.take missing).length - nonASCIISequenceLength first = 0 := by
    rw [length_append, length_take, min_eq_left henough]
    omega
  conv_lhs => rw [handlePartialSequence16]
  simp only [if_neg (not_ascii_of_count hne), if_neg hne, hmissing, if_neg (Nat.not_lt.mpr henough),
    hwhole, take_zero]
  rfl

theorem exists_two (htwo : IsTwo b1) (htail : IsTail b2) : ∃ c, utf8 c = [b1, b2] := by
  unfold IsTwo at htwo
  have htail' := htail
  unfold IsTail at htail'
  obtain ⟨c, hc⟩ := exists_toNat_eq (n := (b1.toNat - 0xC0) * 64 + (b2.toNat - 0x80))
    (by unfold IsScalar; omega)
  exact ⟨c, utf8_two_iff.mpr ⟨htwo.1, htwo.2, htail, hc⟩⟩

theorem decode_two (hc : utf8 c = [b1, b2]) (rest : List UInt8) :
    decodeNonASCIISequence (b1 :: b2 :: rest) 2 = some c.toNat := by
  obtain ⟨hlow, hhigh, -⟩ := utf8_two_iff.mp hc
  have hfst : 0x80 ≤ b1.toNat ∧ b1.toNat < 0xE0 := by omega
  have hagree := agrees_two hfst b2 rest
  cases hdec : decodeNonASCIISequence (b1 :: b2 :: rest) 2 with
  | none =>
    rw [hdec] at hagree
    exact absurd hc (hagree c)
  | some character =>
    rw [hdec] at hagree
    obtain ⟨d, rfl, hd⟩ := hagree
    rw [utf8_injective (hc.trans hd.symm)]

/-- A first byte of two alone in the buffer is read with the byte behind it, or replaced. -/
theorem handle_two (htwo : IsTwo b1) (after : List UInt8) :
    (∃ byte ∈ after.head?, IsTail byte ∧ ∃ c later, utf8 c = [b1, byte] ∧
      (handlePartialSequence16 true false [b1] after).written = utf16 c ++ later) ∨
    (∀ byte ∈ after.head?, ¬ IsTail byte) ∧
      ∃ later, (handlePartialSequence16 true false [b1] after).written = replacement :: later := by
  have hcnt : nonASCIISequenceLength b1 = 2 := nonASCIISequenceLength_of_two htwo
  have hascii : ¬ isASCII b1 := not_ascii_of_count (by omega)
  cases after with
  | nil =>
    refine .inr ⟨by simp, (handlePartialSequence16 true false [] []).written, ?_⟩
    conv_lhs => rw [handlePartialSequence16]
    simp only [if_neg hascii, hcnt]
    rfl
  | cons byte after =>
    rw [handle_turn hcnt (Nat.le_add_left 1 _), hcnt]
    by_cases htail : IsTail byte
    · obtain ⟨c, hc⟩ := exists_two htwo htail
      refine .inl ⟨byte, rfl, htail, c, (handlePartialSequence16 true false [] after).written, hc, ?_⟩
      rw [← appendCharacter_toNat, show [b1] ++ (byte :: after).take 1 = [b1, byte] from rfl,
        decode_two hc]
      rfl
    · refine .inr ⟨by simpa using htail, (handlePartialSequence16 true false [byte] after).written, ?_⟩
      have hnone : decodeNonASCIISequence ([b1] ++ (byte :: after).take 1) 2 = none := by
        unfold IsTwo at htwo
        have hfst : 0x80 ≤ b1.toNat ∧ b1.toNat < 0xE0 := by omega
        have hagree := agrees_two hfst byte []
        cases hdec : decodeNonASCIISequence [b1, byte] 2 with
        | none => exact hdec
        | some character =>
          rw [hdec] at hagree
          obtain ⟨c, -, hc⟩ := hagree
          exact absurd (utf8_two_iff.mp hc).2.2.1 htail
      rw [hnone]
      rfl

/-- The byte behind a sequence of two is lost when the buffer is worked off. -/
theorem handle_lost (hfour : IsFour b0) (htwo : IsTwo b1) (hc : utf8 c = [b1, b2]) :
    handlePartialSequence16 true false [b0, b1, b2] (b3 :: after) =
      ((handlePartialSequence16 true false [b1] after).after (utf16 c) false).after [replacement]
        true := by
  have hcnt : nonASCIISequenceLength b0 = 4 := nonASCIISequenceLength_of_four hfour
  have hcnt' : nonASCIISequenceLength b1 = 2 := nonASCIISequenceLength_of_two htwo
  have hnone : decodeNonASCIISequence ([b0, b1, b2] ++ (b3 :: after).take 1) 4 = none := by
    unfold IsFour at hfour
    have hfst : 0xF0 ≤ b0.toNat ∧ b0.toNat < 0xF5 := by omega
    have hagree := agrees_four hfst b1 b2 b3 []
    cases hdec : decodeNonASCIISequence [b0, b1, b2, b3] 4 with
    | none => exact hdec
    | some character =>
      rw [hdec] at hagree
      obtain ⟨d, -, hd⟩ := hagree
      have hsnd := (utf8_four_iff.mp hd).2.1
      unfold IsTail at hsnd
      unfold IsTwo at htwo
      omega
  have hsnd : handlePartialSequence16 true false [b1, b2, b3] after =
      (handlePartialSequence16 true false [b1] after).after (utf16 c) false := by
    have hascii : ¬ isASCII b1 := not_ascii_of_count (by omega)
    conv_lhs => rw [handlePartialSequence16]
    simp only [if_neg hascii, hcnt', length_cons, length_nil, Nat.reduceAdd,
      Nat.reduceSub, Nat.not_lt_zero, if_false, take_zero, append_nil, drop_zero]
    rw [decode_two hc, ← appendCharacter_toNat]
    rfl
  rw [handle_turn hcnt (Nat.le_add_left 1 _), hcnt, hnone]
  rw [← hsnd]
  rfl

theorem written_decode16 (sourceEnd : ℕ) (flush : Bool) (buffer source : List UInt8) :
    ∃ later, (decode16 word sourceEnd flush false buffer source).written =
      (handlePartialSequence16 flush false buffer source).written ++ later := by
  by_cases hkept : (handlePartialSequence16 flush false buffer source).partialSequence = []
  · rw [decode16_of_empty word sourceEnd flush hkept]
    exact ⟨_, rfl⟩
  · rw [decode16_of_kept word sourceEnd flush hkept]
    exact ⟨[], (append_nil _).symm⟩

/-- What the first byte of two is read as is not what the text has there. -/
theorem not_decodesTo_lost (htwo : IsTwo b1) (hne : b3 ≠ b1)
    (hharm : b3.toNat < 0x80 ∨ ∃ byte ∈ after.head?, IsTail byte) (later : List UInt16)
    (replaced : Bool) :
    ¬ DecodesTo (b3 :: after) ((handlePartialSequence16 true false [b1] after).written ++ later)
      replaced := by
  intro hdec
  unfold DecodesTo at hdec
  generalize hunits : (handlePartialSequence16 true false [b1] after).written ++ later = units
    at hdec
  generalize htext : b3 :: after = text at hdec
  rcases handle_two htwo after with ⟨byte, hbyte, htail, c, more, hc, hwritten⟩ | ⟨hnot, more, hwritten⟩
  · obtain ⟨hlow, hhigh, -, hval⟩ := utf8_two_iff.mp hc
    have hunit : utf16 c = [UInt16.ofNat c.toNat] := if_pos (by unfold IsTail at htail; omega)
    have hunit' : (UInt16.ofNat c.toNat).toNat = c.toNat := by
      rw [UInt16.toNat_ofNat']
      unfold IsTail at htail
      omega
    rw [hwritten, hunit, append_assoc, singleton_append] at hunits
    cases hdec with
    | done => exact absurd htext (cons_ne_nil _ _)
    | character d hrest =>
      rcases utf16_cases d with ⟨a, hd⟩ | ⟨a, b, hd⟩
      all_goals
        rw [hd] at hunits
        obtain ⟨rfl, -⟩ := cons_eq_cons.mp hunits
      · have hsame : d = c := toNat_inj ((utf16_one_iff.mp hd).trans hunit')
        rw [hsame, hc] at htext
        exact hne (cons_eq_cons.mp htext).1
      · have hlead := (utf16_two_iff.mp hd).1
        unfold IsLead at hlead
        unfold IsTail at htail
        omega
    | error hnone hrest =>
      have hreplaced := congrArg UInt16.toNat (cons_eq_cons.mp hunits).1
      rw [hunit'] at hreplaced
      have hval' : replacement.toNat = 0xFFFD := rfl
      unfold IsTail at htail
      omega
  · have hascii : b3.toNat < 0x80 := by
      rcases hharm with hascii | ⟨byte, hbyte, htail⟩
      · exact hascii
      · exact absurd htail (hnot byte hbyte)
    obtain ⟨e, he, hunit⟩ := exists_ascii (isASCII_iff.mpr hascii)
    rw [hwritten, cons_append] at hunits
    cases hdec with
    | done => exact absurd htext (cons_ne_nil _ _)
    | character d hrest =>
      obtain ⟨rfl, -⟩ := utf8_append_inj ((congrArg (· ++ after) he).trans htext)
      rw [hunit] at hunits
      have hreplaced := congrArg UInt16.toNat (cons_eq_cons.mp hunits).1
      rw [UInt8.toNat_toUInt16] at hreplaced
      have hval : replacement.toNat = 0xFFFD := rfl
      omega
    | error hnone hrest =>
      apply hnone e
      rw [he, ← htext]
      exact ⟨after, rfl⟩

/-- A call on a chunk with three such bytes at its end. -/
theorem decode_first (hfour : IsFour b0) : decode word [] ⟨before ++ [b0, b1, b2], 0⟩ false false =
    ⟨(scan16 word (0 + (before ++ [b0, b1, b2]).length) false (before ++ [b0, b1, b2])).written,
      [b0, b1, b2],
      (scan16 word (0 + (before ++ [b0, b1, b2]).length) false (before ++ [b0, b1, b2])).sawError⟩ := by
  have hnothing : Pending [] := trivial
  rw [decode_eq word false hnothing, decode16_nil, finish16, if_neg fun h => Bool.false_ne_true h.1,
    scan16_keeps word _ hfour]

/-- A text with a byte that is lost and matters is not decoded as the reference does when it is cut
before that byte. -/
theorem not_decodesTo_decodeChunks (hfour : IsFour b0) (htwo : IsTwo b1) (htail : IsTail b2)
    (hne : b3 ≠ b1) (hharm : b3.toNat < 0x80 ∨ ∃ byte ∈ after.head?, IsTail byte) (replaced : Bool) :
    ¬ DecodesTo (before ++ b0 :: b1 :: b2 :: b3 :: after)
      (decodeChunks word [] [⟨before ++ [b0, b1, b2], 0⟩] ⟨b3 :: after, 0⟩).units replaced := by
  intro hdec
  obtain ⟨c, hc⟩ := exists_two htwo htail
  have hpend : Pending [b0, b1, b2] := by
    change 3 < nonASCIISequenceLength b0
    rw [nonASCIISequenceLength_of_four hfour]
    exact Nat.lt_succ_self 3
  obtain ⟨later, hlater⟩ := written_decode16 word (0 + (b3 :: after).length) true [b0, b1, b2]
    (b3 :: after)
  rw [decodeChunks, decodeChunks] at hdec
  rw [decode_first word hfour, decode_eq word true hpend] at hdec
  rw [hlater, handle_lost hfour htwo hc] at hdec
  have hscan := (reads_scan16 word (0 + (before ++ [b0, b1, b2]).length) (before ++ [b0, b1, b2])
    (b3 :: after)).1
  rw [scan16_keeps word _ hfour] at hscan
  have hnone : StartsNone (b0 :: b1 :: b2 :: b3 :: after) := by
    apply startsNone_of_not_tail
    · unfold IsFour at hfour
      omega
    · unfold IsTwo at htwo
      intro byte hbyte
      cases hbyte
      unfold IsTail
      omega
  have hpair := Reads.character c (.done (b3 :: after))
  rw [append_nil, hc] at hpair
  have hreads := (hscan.trans (.error hnone (.done _))).trans hpair
  rw [append_assoc] at hreads
  have htext : before ++ b0 :: b1 :: b2 :: b3 :: after =
      before ++ ([b0, b1, b2] ++ b3 :: after) := rfl
  have hunits : ∀ units, units ++ (([replacement] ++ (utf16 c ++
        (handlePartialSequence16 true false [b1] after).written)) ++ later) =
      units ++ [replacement] ++ utf16 c ++
        ((handlePartialSequence16 true false [b1] after).written ++ later) := by
    intro units
    simp only [append_assoc]
  rw [htext, Scan16.after, Scan16.after, hunits] at hdec
  obtain ⟨replaced', hlost⟩ := hreads.cancel hdec
  exact not_decodesTo_lost htwo hne hharm later replaced' hlost

end Lost

/-- A call on a whole text gives the reference. Calls on its chunks give the same, however the text is
cut, just if no byte is lost that matters. -/
theorem decode_chunks_iff (word : MachineWord) (bytes : List UInt8) :
    (∀ address, DecodesTo bytes (decode word [] ⟨bytes, address⟩ true false).units
      (decode word [] ⟨bytes, address⟩ true false).sawError) ∧
    ((∀ chunks last, chunks.flatMap Chunk.bytes ++ last.bytes = bytes →
      DecodesTo bytes (decodeChunks word [] chunks last).units
          (decodeChunks word [] chunks last).sawError ∧
        ∀ address, (decodeChunks word [] chunks last).units =
          (decode word [] ⟨bytes, address⟩ true false).units) ↔
      Harmless bytes) := by
  refine ⟨fun address => decodesTo_decode word ⟨bytes, address⟩, ?_, ?_⟩
  · intro hchunks front hfront
    by_contra hharm
    obtain _ | ⟨b0, _ | ⟨b1, _ | ⟨b2, _ | ⟨b3, after⟩⟩⟩⟩ := front
    case cons.cons.cons.cons =>
      obtain ⟨before, rfl⟩ := (mem_tails _ _).mp hfront
      simp only [HarmlessFront, Classical.not_imp, not_or, not_and, not_forall, not_not] at hharm
      obtain ⟨hfour, htwo, htail, hne, hharm⟩ := hharm
      have hharm' : b3.toNat < 0x80 ∨ ∃ byte ∈ after.head?, IsTail byte := by
        by_cases hascii : b3.toNat < 0x80
        · exact .inl hascii
        · exact .inr (hharm (not_lt.mp hascii))
      have hcut : [Chunk.mk (before ++ [b0, b1, b2]) 0].flatMap Chunk.bytes ++ b3 :: after =
          before ++ b0 :: b1 :: b2 :: b3 :: after := by simp
      exact not_decodesTo_decodeChunks word hfour htwo htail hne hharm' _
        (hchunks _ ⟨b3 :: after, 0⟩ hcut).1
    all_goals exact hharm trivial
  · intro hharmless chunks last hbytes
    subst hbytes
    have hnothing : Pending [] := trivial
    have hdec := decodesTo_decodeChunks word chunks last hnothing (.same []) hharmless
    refine ⟨hdec, fun address => ?_⟩
    exact (hdec.unique (decodesTo_decode word ⟨_, address⟩)).1

theorem decode_chunks_cut_accent : (decodeChunks .word64 [] [⟨[0xC3], 0⟩] ⟨[0xA9], 0⟩).units =
      (decode .word64 [] ⟨[0xC3, 0xA9], 0⟩ true false).units :=
  ((decode_chunks_iff .word64 [0xC3, 0xA9]).2.mpr (by decide) [⟨[0xC3], 0⟩] ⟨[0xA9], 0⟩ rfl).2 0

/-- The bytes `F0 C3 A9 41`, cut behind the first one: the last one is lost. -/
theorem decode_chunks_lost_letter :
    (decode .word64 [] ⟨[0xF0, 0xC3, 0xA9, 0x41], 0⟩ true false).units = [0xFFFD, 0xE9, 0x41] ∧
      (decodeChunks .word64 [] [⟨[0xF0], 0⟩] ⟨[0xC3, 0xA9, 0x41], 1⟩).units =
        [0xFFFD, 0xE9, 0xFFFD] := by
  decide +kernel

theorem Harmless.cons {b0 : UInt8} {rest : List UInt8} (h : Harmless rest)
    (hfst : IsFour b0 → ∀ b1 ∈ rest.head?, IsTail b1) : Harmless (b0 :: rest) := by
  refine forall_mem_cons.mpr ⟨?_, h⟩
  obtain _ | ⟨b1, _ | ⟨b2, _ | ⟨b3, after⟩⟩⟩ := rest
  case cons.cons.cons =>
    intro hfour htwo
    have htail := hfst hfour b1 rfl
    grind [IsTwo, IsTail]
  all_goals trivial

/-- In UTF-8 a first byte of four is followed by a byte that continues its sequence. -/
theorem harmless_utf8 (text : List Char) : Harmless (text.flatMap utf8) := by
  induction text with
  | nil => exact .of_length (Nat.zero_le _)
  | cons c text ih =>
    obtain ⟨first, tail, hc⟩ := exists_cons_of_ne_nil (utf8_ne_nil c)
    have htails := isTail_of_utf8 hc
    have htail : Harmless (tail ++ text.flatMap utf8) := by
      clear hc
      induction tail with
      | nil => exact ih
      | cons byte tail ihTail =>
        obtain ⟨hbyte, htails⟩ := forall_mem_cons.mp htails
        exact (ihTail htails).cons (by grind [IsFour, IsTail])
    rw [flatMap_cons, hc]
    refine htail.cons fun hfour b1 hb1 => ?_
    cases tail with
    | nil =>
      have hone := (utf8_one_iff.mp hc).1
      grind [IsFour]
    | cons second tail => exact htails b1 (mem_of_mem_head? hb1)

theorem decodesTo_utf8 (text : List Char) :
    DecodesTo (text.flatMap utf8) (text.flatMap utf16) false := by
  induction text with
  | nil => exact .done []
  | cons c text ih => exact .character c ih

/-- A text is converted to UTF-8 that is decoded to it without an error, however it is cut. -/
theorem decodeChunks_converted (word : MachineWord) (text : List Char) :
    (∀ room, (text.flatMap utf8).length ≤ room →
      convertUTF16ToUTF8 (text.flatMap utf16) room true = ⟨.conversionOK, [], text.flatMap utf8⟩) ∧
    ∀ chunks last, chunks.flatMap Chunk.bytes ++ last.bytes = text.flatMap utf8 →
      (decodeChunks word [] chunks last).units = text.flatMap utf16 ∧
        (decodeChunks word [] chunks last).sawError = false := by
  refine ⟨fun room hroom => convert_characters text true hroom, fun chunks last hbytes => ?_⟩
  have hharm := harmless_utf8 text
  rw [← hbytes] at hharm
  have hnothing : Pending [] := trivial
  have hdec := decodesTo_decodeChunks word chunks last hnothing (.same []) hharm
  rw [nil_append, hbytes] at hdec
  exact hdec.unique (decodesTo_utf8 text)

end WebKit.TextCodecUTF8
