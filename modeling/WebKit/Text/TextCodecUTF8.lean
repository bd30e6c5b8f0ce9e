import WebKit.Foundation.LittleEndian
import WebKit.Foundation.ReplacementDecoding
import WebKit.WTF.UTF8

/-!
The decoder of UTF-8 text that comes in chunks. Bytes at the end of a chunk that may begin a sequence
are kept in a buffer until the next call. A chunk is decoded into characters of 8 bits as long as
these suffice; then the 16-bit routine goes on from there. Both routines first work off the buffer,
filling it up from the chunk.
-/

namespace WebKit.TextCodecUTF8

open List UTF8 Unicode

inductive MachineWord where
  | word32
  | word64

namespace MachineWord

def size : MachineWord → ℕ
  | word32 => 4
  | word64 => 8

def nonASCIIMask : MachineWord → ℕ
  | word32 => 0x80808080
  | word64 => 0x8080808080808080

variable (word : MachineWord)

def isAllASCII (chunk : ℕ) : Bool := chunk &&& word.nonASCIIMask = 0

def isAlignedToMachineWord (pointer : ℕ) : Bool :=
  pointer &&& (word.size - 1) = 0

def alignToMachineWord (pointer : ℕ) : ℕ :=
  pointer - (pointer &&& (word.size - 1))

end MachineWord

def lengths : List ℕ :=
  replicate 128 0 ++ replicate 96 2 ++ replicate 16 3 ++ replicate 5 4 ++
    replicate 11 0

def nonASCIISequenceLength (firstByte : UInt8) : ℕ := lengths.getD firstByte.toNat 0

def decodeNonASCIISequence (sequence : List UInt8) (length : ℕ) : Option ℕ :=
  let s0 := (sequence.getD 0 0).toNat
  let s1 := (sequence.getD 1 0).toNat
  let s2 := (sequence.getD 2 0).toNat
  let s3 := (sequence.getD 3 0).toNat
  if length = 2 then
    if s0 < 0xC2 then none
    else if s1 < 0x80 ∨ s1 > 0xBF then none
    else some ((s0 <<< 6) + s1 - 0x00003080)
  else if length = 3 then
    if s0 = 0xE0 ∧ (s1 < 0xA0 ∨ s1 > 0xBF) then none
    else if s0 = 0xED ∧ (s1 < 0x80 ∨ s1 > 0x9F) then none
    else if s0 ≠ 0xE0 ∧ s0 ≠ 0xED ∧ (s1 < 0x80 ∨ s1 > 0xBF) then none
    else if s2 < 0x80 ∨ s2 > 0xBF then none
    else some ((s0 <<< 12) + (s1 <<< 6) + s2 - 0x000E2080)
  else
    if s0 = 0xF0 ∧ (s1 < 0x90 ∨ s1 > 0xBF) then none
    else if s0 = 0xF4 ∧ (s1 < 0x80 ∨ s1 > 0x8F) then none
    else if s0 ≠ 0xF0 ∧ s0 ≠ 0xF4 ∧ (s1 < 0x80 ∨ s1 > 0xBF) then none
    else if s2 < 0x80 ∨ s2 > 0xBF then none
    else if s3 < 0x80 ∨ s3 > 0xBF then none
    else some ((s0 <<< 18) + (s1 <<< 12) + (s2 <<< 6) + s3 - 0x03C82080)

def appendCharacter (character : ℕ) : List UInt16 :=
  if character ≤ 0xFFFF then [UInt16.ofNat character]
  else [UInt16.ofNat ((character >>> 10) + 0xD7C0), UInt16.ofNat ((character &&& 0x3FF) ||| 0xDC00)]

structure Partial8 where
  written : List UInt8
  partialSequence : List UInt8
  source : List UInt8
  upConvert : Bool

/-- What is left in the buffer when the source does not suffice. The bytes are copied and the source
pointer stays. -/
def handlePartialSequence8 (flush : Bool) (partialSequence source : List UInt8) : Partial8 :=
  match partialSequence with
  | [] => ⟨[], [], source, false⟩
  | b0 :: rest =>
    if isASCII b0 then
      let later := handlePartialSequence8 flush rest source
      { later with written := b0 :: later.written }
    else
      let count := nonASCIISequenceLength b0
      if count = 0 then ⟨[], b0 :: rest, source, true⟩
      else if source.length < count - (b0 :: rest).length then
        if flush then ⟨[], b0 :: rest, source, true⟩
        else ⟨[], b0 :: rest ++ source, source, false⟩
      else
        let filled := b0 :: rest ++ source.take (count - (b0 :: rest).length)
        let after := source.drop (count - (b0 :: rest).length)
        match decodeNonASCIISequence filled count with
        | none => ⟨[], filled, after, true⟩
        | some character =>
          if character > 0xFF then ⟨[], filled, after, true⟩
          else
            let later := handlePartialSequence8 flush (filled.take (filled.length - count)) after
            { later with written := UInt8.ofNat character :: later.written }
termination_by partialSequence.length + source.length
decreasing_by
  · rw [length_cons]
    omega
  · rw [length_take, length_append, length_take, length_drop, length_cons]
    omega

structure Scan16 where
  written : List UInt16
  partialSequence : List UInt8
  source : List UInt8
  sawError : Bool

def Scan16.after (scan : Scan16) (units : List UInt16) (sawError : Bool) : Scan16 :=
  { scan with written := units ++ scan.written, sawError := sawError || scan.sawError }

def handlePartialSequence16 (flush stopOnError : Bool) (partialSequence source : List UInt8) :
    Scan16 :=
  match partialSequence with
  | [] => ⟨[], [], source, false⟩
  | b0 :: rest =>
    if isASCII b0 then
      (handlePartialSequence16 flush stopOnError rest source).after [b0.toUInt16] false
    else
      let count := nonASCIISequenceLength b0
      if count = 0 then
        if stopOnError then ⟨[], b0 :: rest, source, true⟩
        else (handlePartialSequence16 flush stopOnError rest source).after [replacement] true
      else if source.length < count - (b0 :: rest).length then
        if flush then
          if stopOnError then ⟨[], b0 :: rest, source, true⟩
          else (handlePartialSequence16 flush stopOnError rest source).after [replacement] true
        else ⟨[], b0 :: rest ++ source, source, false⟩
      else
        let filled := b0 :: rest ++ source.take (count - (b0 :: rest).length)
        let after := source.drop (count - (b0 :: rest).length)
        match decodeNonASCIISequence filled count with
        | none =>
          if stopOnError then ⟨[], filled, after, true⟩
          else (handlePartialSequence16 flush stopOnError filled.tail after).after [replacement] true
        | some character =>
          (handlePartialSequence16 flush stopOnError (filled.take (filled.length - count))
            after).after (appendCharacter character) false
termination_by partialSequence.length + source.length
decreasing_by
  · rw [length_cons]
    omega
  · rw [length_cons]
    omega
  · rw [length_cons]
    omega
  · rw [length_tail, length_append, length_take, length_drop, length_cons]
    omega
  · rw [length_take, length_append, length_take, length_drop, length_cons]
    omega

variable (word : MachineWord) (sourceEnd : ℕ)

def copyASCIIMachineWords (source : List UInt8) : List UInt8 × List UInt8 :=
  if sourceEnd - source.length < word.alignToMachineWord sourceEnd ∧
      word.isAllASCII (LittleEndian.decode (source.take word.size)) then
    let later := copyASCIIMachineWords (source.drop word.size)
    (source.take word.size ++ later.1, later.2)
  else ([], source)
termination_by source.length
decreasing_by
  rename_i hcopy
  have hbefore := hcopy.1
  have hsize : 0 < word.size := by cases word <;> decide
  unfold MachineWord.alignToMachineWord at hbefore
  rw [length_drop]
  omega

def copyASCIIByte : List UInt8 × List UInt8 → List UInt8 × List UInt8
  | (copied, []) => (copied, [])
  | (copied, byte :: rest) =>
    if isASCII byte then (copied ++ [byte], rest) else (copied, byte :: rest)

def copyASCII (source : List UInt8) : List UInt8 × List UInt8 :=
  copyASCIIByte (if word.isAlignedToMachineWord (sourceEnd - source.length) then
    copyASCIIMachineWords word sourceEnd source else ([], source))

inductive Sequence where
  | illegal
  | incomplete
  | character (count character : ℕ)

def nextSequence (source : List UInt8) : Sequence :=
  let count := nonASCIISequenceLength (source.getD 0 0)
  if count = 0 then .illegal
  else if source.length < count then .incomplete
  else
    match decodeNonASCIISequence source count with
    | none => .illegal
    | some character => .character count character

variable (word : MachineWord) (sourceEnd : ℕ)

theorem copyASCIIMachineWords_append (source : List UInt8) :
    (copyASCIIMachineWords word sourceEnd source).1 ++
      (copyASCIIMachineWords word sourceEnd source).2 = source := by
  fun_induction copyASCIIMachineWords word sourceEnd source with
  | case1 source hcopy later ih =>
    rw [append_assoc, ih, take_append_drop]
  | case2 source hcopy => rfl

theorem copyASCIIByte_append (words : List UInt8 × List UInt8) :
    (copyASCIIByte words).1 ++ (copyASCIIByte words).2 = words.1 ++ words.2 := by
  obtain ⟨copied, after⟩ := words
  cases after with
  | nil => rfl
  | cons byte rest =>
    rw [copyASCIIByte]
    split_ifs
    · exact append_assoc copied [byte] rest
    · rfl

theorem copyASCIIByte_eq_nil {words : List UInt8 × List UInt8}
    (h : (copyASCIIByte words).1 = []) : words.1 = [] ∧ ∀ byte ∈ words.2.head?, ¬ isASCII byte := by
  obtain ⟨copied, after⟩ := words
  cases after with
  | nil => exact ⟨h, fun byte hbyte => absurd hbyte (by simp)⟩
  | cons first rest =>
    rw [copyASCIIByte] at h
    split_ifs at h with hfst
    · exact absurd (append_eq_nil_iff.mp h).2 (cons_ne_nil _ _)
    · exact ⟨h, by simpa using hfst⟩

theorem copyASCII_append (source : List UInt8) :
    (copyASCII word sourceEnd source).1 ++ (copyASCII word sourceEnd source).2 = source := by
  rw [copyASCII, copyASCIIByte_append]
  split_ifs
  · exact copyASCIIMachineWords_append word sourceEnd source
  · rfl

/-- A turn that begins at an ASCII byte copies it. -/
theorem length_copyASCII_lt {byte : UInt8} (rest : List UInt8) (hbyte : isASCII byte) :
    (copyASCII word sourceEnd (byte :: rest)).2.length < (byte :: rest).length := by
  have hcopied : (copyASCII word sourceEnd (byte :: rest)).1 ≠ [] := by
    intro hnil
    obtain ⟨hwords, hfst⟩ := copyASCIIByte_eq_nil hnil
    apply hfst byte _ hbyte
    split_ifs at hwords ⊢
    · have happ := copyASCIIMachineWords_append word sourceEnd (byte :: rest)
      rw [hwords, nil_append] at happ
      rw [happ]
      rfl
    · rfl
  have hpos := length_pos_of_ne_nil hcopied
  have hlen := congrArg length (copyASCII_append word sourceEnd (byte :: rest))
  rw [length_append] at hlen
  omega

structure Scan8 where
  written : List UInt8
  partialSequence : List UInt8
  source : List UInt8
  sawError : Bool
  upConvert : Bool

def Scan8.after (scan : Scan8) (characters : List UInt8) (sawError : Bool) : Scan8 :=
  { scan with written := characters ++ scan.written, sawError := sawError || scan.sawError }

variable (stopOnError : Bool)

def scan8 (source : List UInt8) : Scan8 :=
  match source with
  | [] => ⟨[], [], [], false, false⟩
  | byte :: rest =>
    if isASCII byte then
      let copied := copyASCII word sourceEnd (byte :: rest)
      (scan8 copied.2).after copied.1 false
    else
      match nextSequence (byte :: rest) with
      | .illegal => ⟨[], [], byte :: rest, true, !stopOnError⟩
      | .incomplete => ⟨[], byte :: rest, [], false, false⟩
      | .character count character =>
        if character > 0xFF then ⟨[], [], byte :: rest, false, true⟩
        else
          (scan8 (rest.drop (count - 1))).after [UInt8.ofNat character] false
termination_by source.length
decreasing_by
  · exact length_copyASCII_lt word sourceEnd rest ‹_›
  · rw [length_drop, length_cons]
    omega

def scan16 (source : List UInt8) : Scan16 :=
  match source with
  | [] => ⟨[], [], [], false⟩
  | byte :: rest =>
    if isASCII byte then
      let copied := copyASCII word sourceEnd (byte :: rest)
      (scan16 copied.2).after (copied.1.map (·.toUInt16)) false
    else
      match nextSequence (byte :: rest) with
      | .illegal =>
        if stopOnError then ⟨[], [], byte :: rest, true⟩
        else (scan16 rest).after [replacement] true
      | .incomplete => ⟨[], byte :: rest, [], false⟩
      | .character count character =>
        (scan16 (rest.drop (count - 1))).after
          (appendCharacter character) false
termination_by source.length
decreasing_by
  · exact length_copyASCII_lt word sourceEnd rest ‹_›
  · rw [length_cons]
    omega
  · rw [length_drop, length_cons]
    omega

theorem scan8_partialSequence (source : List UInt8)
    (h : (scan8 word sourceEnd stopOnError source).partialSequence ≠ []) :
    source ≠ [] ∧ (scan8 word sourceEnd stopOnError source).source = [] := by
  fun_induction scan8 word sourceEnd stopOnError source with
  | case1 | case3 | case5 => exact absurd rfl h
  | case2 byte rest hascii copied ih => exact ⟨cons_ne_nil _ _, (ih h).2⟩
  | case4 => exact ⟨cons_ne_nil _ _, rfl⟩
  | case6 byte rest hascii count character hnext hnarrow ih => exact ⟨cons_ne_nil _ _, (ih h).2⟩

theorem scan16_partialSequence (source : List UInt8)
    (h : (scan16 word sourceEnd stopOnError source).partialSequence ≠ []) :
    source ≠ [] ∧ (scan16 word sourceEnd stopOnError source).source = [] := by
  fun_induction scan16 word sourceEnd stopOnError source with
  | case1 | case3 => exact absurd rfl h
  | case2 byte rest hascii copied ih => exact ⟨cons_ne_nil _ _, (ih h).2⟩
  | case4 byte rest hascii hnext hstop ih => exact ⟨cons_ne_nil _ _, (ih h).2⟩
  | case5 => exact ⟨cons_ne_nil _ _, rfl⟩
  | case6 byte rest hascii count character hnext ih => exact ⟨cons_ne_nil _ _, (ih h).2⟩

theorem handlePartialSequence8_source (flush : Bool) (partialSequence source : List UInt8) :
    (handlePartialSequence8 flush partialSequence source).source.length ≤ source.length := by
  fun_induction handlePartialSequence8 flush partialSequence source with
  | case1 | case3 | case4 | case5 => exact le_rfl
  | case2 source b0 rest hascii later ih => exact ih
  | case6 | case7 => exact (drop_sublist _ _).length_le
  | case8 source b0 rest hascii count hcnt hfew filled after character hdec hnarrow later ih =>
    exact ih.trans (drop_sublist _ source).length_le

variable (flush stopOnError : Bool)

theorem handlePartialSequence16_source (partialSequence source : List UInt8) :
    (handlePartialSequence16 flush stopOnError partialSequence source).source.length ≤
      source.length := by
  fun_induction handlePartialSequence16 flush stopOnError partialSequence source with
  | case1 | case3 | case5 | case7 => exact le_rfl
  | case2 | case4 | case6 => assumption
  | case8 => exact (drop_sublist _ _).length_le
  | case9 source b0 rest hascii count hcnt hfew filled after hdec hstop ih =>
    exact ih.trans (drop_sublist _ source).length_le
  | case10 source b0 rest hascii count hcnt hfew filled after character hdec ih =>
    exact ih.trans (drop_sublist _ source).length_le

/-- The 8-bit routine. An empty buffer is passed over. Where the buffer does not decode into 8 bits
the destination stays as it was before the buffer. -/
def decode8 (partialSequence source : List UInt8) : Scan8 :=
  let handled := handlePartialSequence8 flush partialSequence source
  if handled.upConvert then ⟨[], handled.partialSequence, handled.source, false, true⟩
  else if handled.partialSequence ≠ [] then
    ⟨handled.written, handled.partialSequence, handled.source, false, false⟩
  else
    let scan := scan8 word sourceEnd stopOnError handled.source
    (if scan.upConvert = false ∧ flush = true ∧ scan.partialSequence ≠ [] then
      (decode8 scan.partialSequence scan.source).after scan.written
        scan.sawError
    else scan).after handled.written false
termination_by source.length
decreasing_by
  rename_i hagain
  obtain ⟨hsource, hend⟩ := scan8_partialSequence _ _ _ _ hagain.2.2
  have hpos := length_pos_of_ne_nil hsource
  have hle := handlePartialSequence8_source flush partialSequence source
  rw [hend, length_nil]
  exact Nat.lt_of_lt_of_le hpos hle

def decode16 (partialSequence source : List UInt8) : Scan16 :=
  let handled := handlePartialSequence16 flush stopOnError partialSequence source
  if handled.partialSequence ≠ [] then handled
  else
    let scan := scan16 word sourceEnd stopOnError handled.source
    (if flush = true ∧ scan.partialSequence ≠ [] then
      (decode16 scan.partialSequence scan.source).after scan.written
        scan.sawError
    else scan).after handled.written handled.sawError
termination_by source.length
decreasing_by
  rename_i hagain
  obtain ⟨hsource, hend⟩ := scan16_partialSequence _ _ _ _ hagain.2
  have hpos := length_pos_of_ne_nil hsource
  have hle := handlePartialSequence16_source flush stopOnError partialSequence source
  rw [hend, length_nil]
  exact Nat.lt_of_lt_of_le hpos hle

structure Chunk where
  bytes : List UInt8
  address : ℕ

structure Decoded where
  units : List UInt16
  partialSequence : List UInt8
  sawError : Bool

def decode (partialSequence : List UInt8) (chunk : Chunk) (flush stopOnError : Bool) : Decoded :=
  let sourceEnd := chunk.address + chunk.bytes.length
  let narrow := decode8 word sourceEnd flush stopOnError partialSequence chunk.bytes
  if narrow.upConvert then
    let wide := decode16 word sourceEnd flush stopOnError narrow.partialSequence narrow.source
    ⟨narrow.written.map (·.toUInt16) ++ wide.written, wide.partialSequence,
      narrow.sawError || wide.sawError⟩
  else ⟨narrow.written.map (·.toUInt16), narrow.partialSequence, narrow.sawError⟩

def decodeChunks (partialSequence : List UInt8) : List Chunk → Chunk → Decoded
  | [], last => decode word partialSequence last true false
  | chunk :: chunks, last =>
    let first := decode word partialSequence chunk false false
    let later := decodeChunks first.partialSequence chunks last
    ⟨first.units ++ later.units, later.partialSequence, first.sawError || later.sawError⟩

end WebKit.TextCodecUTF8
