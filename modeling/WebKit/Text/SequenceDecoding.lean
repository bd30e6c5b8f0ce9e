import WebKit.Text.TextCodecUTF8

/-!
What the 16-bit routine of the decoder reads. The loop over the source reads it as the reference does
and keeps the bytes at its end that may begin a sequence. Working off the buffer reads as the
reference does unless a byte is lost: when the buffer holds a byte behind a sequence of two bytes, the
first byte of that sequence is read again in its place. That is harmless only where the lost byte is
the same one, or would be replaced and the other one is replaced as well.
-/

namespace WebKit.TextCodecUTF8

open List UTF8 Unicode

theorem nonASCIISequenceLength_eq (b0 : UInt8) : nonASCIISequenceLength b0 =
    if b0.toNat < 0x80 then 0 else if b0.toNat < 0xE0 then 2 else if b0.toNat < 0xF0 then 3
    else if b0.toNat < 0xF5 then 4 else 0 := by
  have hall : ∀ n < 256, lengths.getD n 0 =
      if n < 0x80 then 0 else if n < 0xE0 then 2 else if n < 0xF0 then 3
      else if n < 0xF5 then 4 else 0 := by decide +kernel
  exact hall b0.toNat b0.toNat_lt

variable {b0 : UInt8} {bytes : List UInt8}

theorem nonASCIISequenceLength_eq_sequenceLength (h : nonASCIISequenceLength b0 ≠ 0) :
    sequenceLength b0 = nonASCIISequenceLength b0 := by
  rw [nonASCIISequenceLength_eq] at h ⊢
  unfold sequenceLength
  split_ifs at h ⊢
  all_goals first | rfl | omega

theorem appendCharacter_toNat (c : Char) : appendCharacter c.toNat = utf16 c := by
  rw [appendCharacter, utf16]
  by_cases hbmp : c.toNat < 0x10000
  · rw [if_pos (by omega), if_pos hbmp]
  · rw [if_neg (by omega), if_neg hbmp, lead_eq (by omega), trail_eq (by omega)]

/-- Nothing starts where the bytes that the first one asks for are no sequence. -/
theorem startsNone_of_take (h : ∀ c, utf8 c ≠ (b0 :: bytes).take (sequenceLength b0)) :
    StartsNone (b0 :: bytes) :=
  fun c hc => h c (utf8_eq_take hc)

def Agrees (sequence : List UInt8) : Option ℕ → Prop
  | none => ∀ c, utf8 c ≠ sequence
  | some character => ∃ c, c.toNat = character ∧ utf8 c = sequence

theorem agrees_two (h0 : 0x80 ≤ b0.toNat ∧ b0.toNat < 0xE0) (b1 : UInt8) (rest : List UInt8) :
    Agrees [b0, b1] (decodeNonASCIISequence (b0 :: b1 :: rest) 2) := by
  simp only [decodeNonASCIISequence, getD_cons_zero, getD_cons_succ, if_true, Nat.shiftLeft_eq]
  split_ifs with hlow hsnd
  · intro c hc
    rw [utf8_two_iff] at hc
    omega
  · intro c hc
    rw [utf8_two_iff, IsTail] at hc
    omega
  · obtain ⟨c, hc⟩ := exists_toNat_eq (n := b0.toNat * 2 ^ 6 + b1.toNat - 0x3080)
      (by unfold IsScalar; omega)
    exact ⟨c, hc, utf8_two_iff.mpr (by unfold IsTail; omega)⟩

theorem agrees_three (h0 : 0xE0 ≤ b0.toNat ∧ b0.toNat < 0xF0) (b1 b2 : UInt8) (rest : List UInt8) :
    Agrees [b0, b1, b2] (decodeNonASCIISequence (b0 :: b1 :: b2 :: rest) 3) := by
  simp only [decodeNonASCIISequence, getD_cons_zero, getD_cons_succ, if_true,
    Nat.shiftLeft_eq, Nat.reduceEqDiff, if_false]
  split_ifs with hE0 hED hoth hthird
  case neg =>
    obtain ⟨c, hc⟩ := exists_toNat_eq (n := b0.toNat * 2 ^ 12 + b1.toNat * 2 ^ 6 + b2.toNat - 0xE2080)
      (by unfold IsScalar; omega)
    exact ⟨c, hc, utf8_three_iff.mpr (by unfold IsTail; omega)⟩
  all_goals
    intro c hc
    rw [utf8_three_iff, IsTail, IsTail] at hc
    omega

theorem agrees_four (h0 : 0xF0 ≤ b0.toNat ∧ b0.toNat < 0xF5) (b1 b2 b3 : UInt8) (rest : List UInt8) :
    Agrees [b0, b1, b2, b3] (decodeNonASCIISequence (b0 :: b1 :: b2 :: b3 :: rest) 4) := by
  simp only [decodeNonASCIISequence, getD_cons_zero, getD_cons_succ, Nat.shiftLeft_eq,
    Nat.reduceEqDiff, if_false]
  split_ifs with hF0 hF4 hoth hthird hfourth
  case neg =>
    obtain ⟨c, hc⟩ := exists_toNat_eq
      (n := b0.toNat * 2 ^ 18 + b1.toNat * 2 ^ 12 + b2.toNat * 2 ^ 6 + b3.toNat - 0x3C82080)
      (by unfold IsScalar; omega)
    exact ⟨c, hc, utf8_four_iff.mpr (by unfold IsTail; omega)⟩
  all_goals
    intro c hc
    rw [utf8_four_iff, IsTail, IsTail, IsTail] at hc
    omega

variable {rest : List UInt8} {byte : UInt8}

theorem agrees_decodeNonASCIISequence (hcnt : nonASCIISequenceLength b0 ≠ 0)
    (hlen : nonASCIISequenceLength b0 ≤ (b0 :: rest).length) :
    Agrees ((b0 :: rest).take (nonASCIISequenceLength b0))
      (decodeNonASCIISequence (b0 :: rest) (nonASCIISequenceLength b0)) := by
  rw [nonASCIISequenceLength_eq] at hcnt hlen ⊢
  split_ifs at hcnt hlen ⊢ with hascii htwo hthree hfour
  · exact absurd rfl hcnt
  · obtain _ | ⟨b1, rest⟩ := rest
    · simp at hlen
    · exact agrees_two (by omega) b1 rest
  · obtain _ | ⟨b1, _ | ⟨b2, rest⟩⟩ := rest
    · simp at hlen
    · simp at hlen
    · exact agrees_three (by omega) b1 b2 rest
  · obtain _ | ⟨b1, _ | ⟨b2, _ | ⟨b3, rest⟩⟩⟩ := rest
    · simp at hlen
    · simp at hlen
    · simp at hlen
    · exact agrees_four (by omega) b1 b2 b3 rest
  · exact absurd rfl hcnt

theorem isASCII_iff : isASCII byte ↔ byte.toNat < 0x80 := decide_eq_true_iff

theorem startsNone_of_zero (hascii : ¬ isASCII b0) (hzero : nonASCIISequenceLength b0 = 0)
    (bytes : List UInt8) : StartsNone (b0 :: bytes) := by
  rw [isASCII_iff] at hascii
  rw [nonASCIISequenceLength_eq, if_neg hascii] at hzero
  split_ifs at hzero with htwo hthree hfour
  apply startsNone_of_take
  intro c hc
  rw [sequenceLength, if_neg hascii, if_neg htwo, if_neg hthree, take_succ_cons] at hc
  rcases utf8_cases c with ⟨a, h⟩ | ⟨a, b, h⟩ | ⟨a, b, d, h⟩ | ⟨a, b, d, e, h⟩
  all_goals obtain ⟨rfl, -⟩ := cons_eq_cons.mp (h.symm.trans hc)
  · exact absurd (utf8_one_iff.mp h).1 hascii
  · have hfst := (utf8_two_iff.mp h).2.1
    omega
  · have hfst := (utf8_three_iff.mp h).1.2
    omega
  · have hfst := (utf8_four_iff.mp h).1.2
    omega

/-- Nothing starts where the text ends too early. -/
theorem startsNone_of_short (hshort : (b0 :: bytes).length < nonASCIISequenceLength b0) :
    StartsNone (b0 :: bytes) := by
  have hlen := nonASCIISequenceLength_eq_sequenceLength (Nat.ne_zero_of_lt hshort)
  apply startsNone_of_take
  rw [take_of_length_le (by omega)]
  intro c hc
  have hc' := length_eq_sequenceLength hc
  rw [hc, hlen] at hc'
  omega

section

variable (hcnt : nonASCIISequenceLength b0 ≠ 0)
  (hlen : nonASCIISequenceLength b0 ≤ (b0 :: rest).length)

include hcnt hlen

/-- Nothing starts where the bytes that the first one asks for do not decode. -/
theorem startsNone_of_none
    (hnone : decodeNonASCIISequence (b0 :: rest) (nonASCIISequenceLength b0) = none)
    (future : List UInt8) : StartsNone (b0 :: rest ++ future) := by
  have hagree := agrees_decodeNonASCIISequence hcnt hlen
  rw [hnone] at hagree
  rw [cons_append]
  apply startsNone_of_take
  rw [nonASCIISequenceLength_eq_sequenceLength hcnt, ← cons_append, take_append_of_le_length hlen]
  exact hagree

theorem exists_of_some {character : ℕ}
    (hsome : decodeNonASCIISequence (b0 :: rest) (nonASCIISequenceLength b0) = some character) :
    ∃ c, c.toNat = character ∧ utf8 c = (b0 :: rest).take (nonASCIISequenceLength b0) := by
  have hagree := agrees_decodeNonASCIISequence hcnt hlen
  rw [hsome] at hagree
  exact hagree

end

theorem exists_ascii (h : isASCII byte) : ∃ c, utf8 c = [byte] ∧ utf16 c = [byte.toUInt16] := by
  rw [isASCII_iff] at h
  obtain ⟨c, hc⟩ := exists_toNat_eq (n := byte.toNat) (by unfold IsScalar; omega)
  exact ⟨c, utf8_one_iff.mpr ⟨h, hc⟩, utf16_one_iff.mpr hc⟩

theorem reads_ascii (h : ∀ byte ∈ bytes, isASCII byte) (left : List UInt8) :
    Reads (bytes ++ left) (bytes.map (·.toUInt16)) false left := by
  induction bytes with
  | nil => exact .done left
  | cons byte bytes ih =>
    obtain ⟨c, hc, hunits⟩ := exists_ascii (h byte mem_cons_self)
    have hreads := Reads.character c (ih fun other hoth => h other (mem_cons_of_mem _ hoth))
    rw [hc, hunits] at hreads
    exact hreads

theorem isASCII_of_mask {width : ℕ} (hwidth : bytes.length ≤ width)
    (hmask : LittleEndian.decode bytes &&& LittleEndian.decode (List.replicate width 0x80) = 0) :
    ∀ byte ∈ bytes, isASCII byte := by
  have hbit : ∀ n < 256, n &&& 0x80 = 0 → n < 0x80 := by decide +kernel
  induction bytes generalizing width with
  | nil => exact nofun
  | cons first rest ih =>
    cases width with
    | zero => exact absurd hwidth (Nat.not_succ_le_zero _)
    | succ width =>
      rw [replicate_succ, LittleEndian.decode_and_eq_zero_iff] at hmask
      intro byte hbyte
      rcases mem_cons.mp hbyte with rfl | hrest
      · exact isASCII_iff.mpr (hbit byte.toNat byte.toNat_lt hmask.1)
      · exact ih (Nat.le_of_succ_le_succ hwidth) hmask.2 byte hrest

theorem isASCII_copyASCIIMachineWords (word : MachineWord) (sourceEnd : ℕ) (source : List UInt8) :
    ∀ byte ∈ (copyASCIIMachineWords word sourceEnd source).1, isASCII byte := by
  fun_induction copyASCIIMachineWords word sourceEnd source with
  | case1 source hcopy later ih =>
    have hmask := of_decide_eq_true hcopy.2
    rw [show word.nonASCIIMask = LittleEndian.decode (replicate word.size 0x80) by
      cases word <;> rfl] at hmask
    intro byte hbyte
    rcases mem_append.mp hbyte with htaken | hlater
    · exact isASCII_of_mask (length_take_le _ _) hmask byte htaken
    · exact ih byte hlater
  | case2 source hcopy => exact forall_mem_nil _

theorem isASCII_copyASCII (word : MachineWord) (sourceEnd : ℕ) (source : List UInt8) :
    ∀ byte ∈ (copyASCII word sourceEnd source).1, isASCII byte := by
  rw [copyASCII]
  generalize hwords : (if word.isAlignedToMachineWord (sourceEnd - source.length) then
    copyASCIIMachineWords word sourceEnd source else ([], source)) = words
  have hcopied : ∀ byte ∈ words.1, isASCII byte := by
    rw [← hwords]
    split_ifs
    · exact isASCII_copyASCIIMachineWords word sourceEnd source
    · exact forall_mem_nil _
  obtain ⟨copied, after⟩ := words
  cases after with
  | nil => exact hcopied
  | cons first rest =>
    rw [copyASCIIByte]
    split_ifs with hfst
    · intro byte hbyte
      rcases mem_append.mp hbyte with hold | hnew
      · exact hcopied byte hold
      · rw [mem_singleton.mp hnew]
        exact hfst
    · exact hcopied

def Shows (source : List UInt8) : Sequence → Prop
  | .illegal => ∀ future, StartsNone (source ++ future)
  | .incomplete => source.length < nonASCIISequenceLength (source.getD 0 0)
  | .character count character =>
    ∃ c, c.toNat = character ∧ source = utf8 c ++ source.tail.drop (count - 1)

theorem shows_nextSequence (rest : List UInt8) (hascii : ¬ isASCII byte) :
    Shows (byte :: rest) (nextSequence (byte :: rest)) := by
  rw [nextSequence, getD_cons_zero]
  split_ifs with hzero hshort
  · exact fun future => startsNone_of_zero hascii hzero (rest ++ future)
  · exact hshort
  · cases hdec : decodeNonASCIISequence (byte :: rest) (nonASCIISequenceLength byte) with
    | none => exact startsNone_of_none hzero (not_lt.mp hshort) hdec
    | some character =>
      obtain ⟨c, hc, htake⟩ := exists_of_some hzero (not_lt.mp hshort) hdec
      refine ⟨c, hc, ?_⟩
      obtain ⟨count, hcnt⟩ := Nat.exists_eq_succ_of_ne_zero hzero
      rw [htake, hcnt, Nat.succ_sub_one, take_succ_cons, tail_cons, cons_append, take_append_drop]

/-- The bytes kept in the buffer may begin a sequence longer than they are. -/
def Pending : List UInt8 → Prop
  | [] => True
  | b0 :: rest => (b0 :: rest).length < nonASCIISequenceLength b0

section Scan

variable (word : MachineWord) (sourceEnd : ℕ)

/-- The loop over the source reads it as the reference does, and keeps the bytes at its end that may
begin a sequence. -/
theorem reads_scan16 (source future : List UInt8) :
    Reads (source ++ future) (scan16 word sourceEnd false source).written
        (scan16 word sourceEnd false source).sawError
        ((scan16 word sourceEnd false source).partialSequence ++ future) ∧
      Pending (scan16 word sourceEnd false source).partialSequence ∧
      (scan16 word sourceEnd false source).source = [] := by
  generalize hstop : false = stopOnError
  fun_induction scan16 word sourceEnd stopOnError source with
  | case1 => exact ⟨.done _, trivial, rfl⟩
  | case2 byte rest hascii copied ih =>
    obtain ⟨hreads, hpend, hend⟩ := ih
    refine ⟨?_, hpend, hend⟩
    have hcopied := reads_ascii (isASCII_copyASCII word sourceEnd (byte :: rest)) (copied.2 ++ future)
    rw [← append_assoc, copyASCII_append] at hcopied
    exact hcopied.trans hreads
  | case3 byte rest hascii hnext htrue => cases hstop.trans htrue
  | case4 byte rest hascii hnext hfalse ih =>
    have hshows := shows_nextSequence rest hascii
    rw [hnext] at hshows
    obtain ⟨hreads, hpend, hend⟩ := ih
    exact ⟨.error (hshows future) hreads, hpend, hend⟩
  | case5 byte rest hascii hnext =>
    have hshows := shows_nextSequence rest hascii
    rw [hnext] at hshows
    exact ⟨.done _, hshows, rfl⟩
  | case6 byte rest hascii count character hnext ih =>
    have hshows := shows_nextSequence rest hascii
    rw [hnext] at hshows
    obtain ⟨hreads, hpend, hend⟩ := ih
    obtain ⟨c, rfl, hsrc⟩ := hshows
    refine ⟨?_, hpend, hend⟩
    rw [hsrc, append_assoc]
    exact (appendCharacter_toNat c) ▸ Reads.character c hreads

end Scan

def IsFour (byte : UInt8) : Prop := 0xF0 ≤ byte.toNat ∧ byte.toNat ≤ 0xF4

def IsTwo (byte : UInt8) : Prop := 0xC2 ≤ byte.toNat ∧ byte.toNat ≤ 0xDF

instance : DecidablePred IsFour := fun _ => inferInstanceAs (Decidable (_ ∧ _))
instance : DecidablePred IsTwo := fun _ => inferInstanceAs (Decidable (_ ∧ _))
instance : DecidablePred IsTail := fun _ => inferInstanceAs (Decidable (_ ∧ _))

/-- Behind a first byte of four and a sequence of two stands the first one of these two again, or a
byte outside of ASCII that no sequence continues. -/
def HarmlessFront : List UInt8 → Prop
  | b0 :: b1 :: b2 :: b3 :: after => IsFour b0 → IsTwo b1 → IsTail b2 →
    b3 = b1 ∨ 0x80 ≤ b3.toNat ∧ ∀ byte ∈ after.head?, ¬ IsTail byte
  | _ => True

instance : DecidablePred HarmlessFront
  | _ :: _ :: _ :: _ :: _ => inferInstanceAs (Decidable (_ → _ → _ → _ ∨ _ ∧ _))
  | [] => inferInstanceAs (Decidable True)
  | [_] => inferInstanceAs (Decidable True)
  | [_, _] => inferInstanceAs (Decidable True)
  | [_, _, _] => inferInstanceAs (Decidable True)

def Harmless (bytes : List UInt8) : Prop := ∀ front ∈ bytes.tails, HarmlessFront front

instance : DecidablePred Harmless := fun bytes =>
  inferInstanceAs (Decidable (∀ front ∈ bytes.tails, HarmlessFront front))

theorem Harmless.of_append (before : List UInt8) (h : Harmless (before ++ bytes)) :
    Harmless bytes := by
  intro front hfront
  rw [mem_tails] at hfront
  exact h front ((mem_tails _ _).mpr (hfront.trans (suffix_append _ _)))

theorem Harmless.of_length (h : bytes.length ≤ 3) : Harmless bytes := by
  intro front hfront
  have hle := ((mem_tails _ _).mp hfront).length_le
  obtain _ | ⟨b0, _ | ⟨b1, _ | ⟨b2, _ | ⟨b3, after⟩⟩⟩⟩ := front
  case cons.cons.cons.cons =>
    simp only [length_cons] at hle
    omega
  all_goals trivial

/-- The buffer stands for bytes of the text: it holds them, or it holds a first byte of two in the
place of a byte that is replaced anyway, as this one will be. -/
inductive Stands (following : List UInt8) : List UInt8 → List UInt8 → Prop
  | same (bytes : List UInt8) : Stands following bytes bytes
  | stale {b0 byte : UInt8} (htwo : IsTwo b0) (hbyte : 0x80 ≤ byte.toNat)
      (hfollowing : ∀ next ∈ following.head?, ¬ IsTail next) : Stands following [b0] [byte]

def Handled (flush : Bool) (bytes future : List UInt8) (scan : Scan16) : Prop :=
  (scan.partialSequence = [] ∧ Reads bytes scan.written scan.sawError (scan.source ++ future)) ∨
    (flush = false ∧ scan.partialSequence ≠ [] ∧ Pending scan.partialSequence ∧
      ∃ kept, Stands future scan.partialSequence kept ∧
        Reads bytes scan.written scan.sawError (kept ++ future))

theorem Handled.error {flush : Bool} {byte : UInt8} {bytes future : List UInt8} {scan : Scan16}
    (h : Handled flush bytes future scan) (hnone : StartsNone (byte :: bytes)) :
    Handled flush (byte :: bytes) future (scan.after [replacement] true) := by
  rcases h with ⟨hempty, hreads⟩ | ⟨hflush, hkept, hpend, kept, hstand, hreads⟩
  · exact .inl ⟨hempty, .error hnone hreads⟩
  · exact .inr ⟨hflush, hkept, hpend, kept, hstand, .error hnone hreads⟩

theorem Handled.character {flush : Bool} {bytes future : List UInt8} {scan : Scan16} (c : Char)
    (h : Handled flush bytes future scan) :
    Handled flush (utf8 c ++ bytes) future (scan.after (utf16 c) false) := by
  rcases h with ⟨hempty, hreads⟩ | ⟨hflush, hkept, hpend, kept, hstand, hreads⟩
  · exact .inl ⟨hempty, .character c hreads⟩
  · exact .inr ⟨hflush, hkept, hpend, kept, hstand, .character c hreads⟩

theorem nonASCIISequenceLength_of_two (h : IsTwo byte) : nonASCIISequenceLength byte = 2 := by
  unfold IsTwo at h
  rw [nonASCIISequenceLength_eq, if_neg (by omega), if_pos (by omega)]

theorem nonASCIISequenceLength_bounds (h : nonASCIISequenceLength byte ≠ 0) :
    2 ≤ nonASCIISequenceLength byte ∧ nonASCIISequenceLength byte ≤ 4 := by
  rw [nonASCIISequenceLength_eq] at h ⊢
  split_ifs at h ⊢
  all_goals omega

theorem isFour_of_length (h : 3 < nonASCIISequenceLength byte) : IsFour byte := by
  rw [nonASCIISequenceLength_eq] at h
  unfold IsFour
  split_ifs at h
  all_goals omega

/-- Nothing starts at a byte outside of ASCII that no byte follows which continues a sequence. -/
theorem startsNone_of_not_tail {following : List UInt8} (hbyte : 0x80 ≤ byte.toNat)
    (hfoll : ∀ next ∈ following.head?, ¬ IsTail next) : StartsNone (byte :: following) := by
  intro c hc
  have hsnd {second : UInt8} {tail : List UInt8} (h : utf8 c = byte :: second :: tail) :
      ¬ IsTail second := by
    apply hfoll
    rw [h, cons_prefix_cons] at hc
    obtain ⟨-, rest, rfl⟩ := hc
    rfl
  obtain ⟨rest, hrest⟩ := hc
  rcases utf8_cases c with ⟨a, h⟩ | ⟨a, b, h⟩ | ⟨a, b, d, h⟩ | ⟨a, b, d, e, h⟩
  all_goals
    rw [h] at hrest
    obtain ⟨rfl, -⟩ := cons_eq_cons.mp hrest
  · have hone := (utf8_one_iff.mp h).1
    omega
  · exact hsnd h (utf8_two_iff.mp h).2.2.1
  · exact hsnd h (utf8_three_iff.mp h).2.1
  · exact hsnd h (utf8_four_iff.mp h).2.1

section Buffer

variable {flush : Bool} {b0 : UInt8} {rest source future bytes : List UInt8}

/-- A buffer that does not begin with a first byte of two holds the bytes of the text. -/
theorem Stands.eq_of_not_two {following : List UInt8} (h : Stands following (b0 :: rest) bytes)
    (htwo : ¬ IsTwo b0) : bytes = b0 :: rest := by
  cases h with
  | same => rfl
  | stale hb0 _ _ => exact absurd hb0 htwo

theorem not_two_of_ascii (h : isASCII b0) : ¬ IsTwo b0 := by
  rw [isASCII_iff] at h
  unfold IsTwo
  omega

theorem length_filled {kept : List UInt8} {count : ℕ} (h : count - kept.length ≤ source.length) :
    (kept ++ source.take (count - kept.length)).length = kept.length + (count - kept.length) := by
  rw [length_append, length_take, min_eq_left h]

/-- Filling the buffer moves bytes of the text. -/
theorem filled_append {missing : ℕ} (source future : List UInt8) : b0 :: rest ++ (source ++ future) =
    b0 :: ((b0 :: rest ++ source.take missing).tail ++ (source.drop missing ++ future)) := by
  rw [cons_append, cons_append, tail_cons, append_assoc,
    ← append_assoc (source.take missing), take_append_drop]

/-- A buffer with a first byte of two is filled up with one byte. -/
theorem exists_next (htwo : IsTwo b0)
    (henough : ¬ source.length < nonASCIISequenceLength b0 - [b0].length) :
    ∃ next after, source = next :: after := by
  rw [nonASCIISequenceLength_of_two htwo] at henough
  cases source with
  | nil => simp at henough
  | cons next after => exact ⟨next, after, rfl⟩

/-- The buffer before a turn of the loop: it has room for a byte, and if it has no more room, its
first byte is one of four or follows one. -/
structure Ready (future partialSequence source bytes : List UInt8) : Prop where
  stands : Stands (source ++ future) partialSequence bytes
  length_le : partialSequence.length ≤ 3
  harmless : Harmless (bytes ++ (source ++ future))
  full : partialSequence.length = 3 → (∃ b0 ∈ partialSequence.head?, IsFour b0) ∨
    ∃ b0, IsFour b0 ∧ Harmless (b0 :: (bytes ++ (source ++ future)))

theorem Ready.of_lt (hlen : rest.length ≤ 2)
    (hharm : Harmless (b0 :: (rest ++ (source ++ future)))) : Ready future rest source rest :=
  ⟨.same rest, by omega, hharm.of_append [b0], fun h => by omega⟩

/-- Working off the buffer reads the text as the reference does. -/
theorem handled_handlePartialSequence16 (hflush : flush → future = [])
    (kept : List UInt8) (hready : Ready future kept source bytes) :
    Handled flush (bytes ++ (source ++ future)) future
      (handlePartialSequence16 flush false kept source) := by
  generalize hstop : false = stopOnError
  revert bytes
  fun_induction handlePartialSequence16 flush stopOnError kept source
  case case1 source =>
    intro bytes hready
    cases hready.stands
    exact .inl ⟨rfl, .done _⟩
  case case2 source b0 rest hascii ih =>
    intro bytes hready
    obtain rfl := hready.stands.eq_of_not_two (not_two_of_ascii hascii)
    obtain ⟨c, hc, hunits⟩ := exists_ascii hascii
    rw [← hunits, cons_append, ← singleton_append, ← hc]
    apply Handled.character
    exact ih (.of_lt (Nat.le_of_succ_le_succ hready.length_le) hready.harmless)
  case case3 source b0 rest hascii count hcnt htrue =>
    cases hstop.trans htrue
  case case4 source b0 rest hascii count hcnt hfalse ih =>
    intro bytes hready
    have htwo : ¬ IsTwo b0 := by
      intro htwo
      have := nonASCIISequenceLength_of_two htwo
      omega
    obtain rfl := hready.stands.eq_of_not_two htwo
    apply Handled.error
    · exact ih (.of_lt (Nat.le_of_succ_le_succ hready.length_le) hready.harmless)
    · exact startsNone_of_zero hascii hcnt _
  case case5 source b0 rest hascii count hcnt hfew hflushed htrue =>
    cases hstop.trans htrue
  case case6 source b0 rest hascii count hcnt hfew hflushed hfalse ih =>
    intro bytes hready
    obtain rfl := hflush hflushed
    have hharm := hready.harmless
    have hlen := hready.length_le
    cases hready.stands with
    | same =>
      rw [cons_append]
      apply Handled.error
      · exact ih (.of_lt (Nat.le_of_succ_le_succ hlen) hharm)
      · apply startsNone_of_short
        rw [length_cons] at hfew
        rw [append_nil, length_cons, length_append]
        omega
    | stale htwo hbyte hfoll =>
      rw [cons_append]
      apply Handled.error
      · exact ih (.of_lt (Nat.zero_le _) hharm)
      · exact startsNone_of_not_tail hbyte hfoll
  case case7 source b0 rest hascii count hcnt hfew hnot =>
    intro bytes hready
    refine .inr ⟨Bool.eq_false_of_not_eq_true hnot, cons_ne_nil _ _, ?_, ?_⟩
    · change (b0 :: (rest ++ source)).length < nonASCIISequenceLength b0
      rw [length_cons] at hfew ⊢
      rw [length_append]
      omega
    · cases hready.stands with
      | same =>
        refine ⟨b0 :: rest ++ source, .same _, ?_⟩
        rw [append_assoc]
        exact .done _
      | @stale _ byte htwo hbyte hfoll =>
        have hcnt := nonASCIISequenceLength_of_two htwo
        obtain rfl : source = [] := by
          apply eq_nil_of_length_eq_zero
          simp only [length_singleton] at hfew
          omega
        exact ⟨[byte], .stale htwo hbyte hfoll, .done _⟩
  case case8 source b0 rest hascii count hcnt hfew filled after hdec htrue =>
    cases hstop.trans htrue
  case case9 source b0 rest hascii count hcnt hfew filled after hdec hfalse ih =>
    intro bytes hready
    have hfilled : filled.length = (b0 :: rest).length + (count - (b0 :: rest).length) :=
      length_filled (not_lt.mp hfew)
    have hbds : 2 ≤ count ∧ count ≤ 4 := nonASCIISequenceLength_bounds hcnt
    have hharm := hready.harmless
    have hlen := hready.length_le
    cases hready.stands with
    | same =>
      have happ : b0 :: rest ++ (source ++ future) =
          b0 :: (filled.tail ++ (after ++ future)) := filled_append source future
      rw [happ] at hharm ⊢
      apply Handled.error
      · apply ih
        refine ⟨.same _, ?_, hharm.of_append [b0], fun hthree => ?_⟩
        · rw [length_tail]
          omega
        · rw [length_tail] at hthree
          have hfour : 3 < count := by omega
          exact .inr ⟨b0, isFour_of_length hfour, hharm⟩
      · have hcnt' : nonASCIISequenceLength b0 ≤ filled.length := by omega
        exact startsNone_of_none hcnt hcnt' hdec (after ++ future)
    | @stale _ byte htwo hbyte hfoll =>
      obtain ⟨next, source, rfl⟩ := exists_next htwo hfew
      have htail : filled.tail = [next] := by
        simp [filled, count, nonASCIISequenceLength_of_two htwo]
      have hafter : after = source := by simp [after, count, nonASCIISequenceLength_of_two htwo]
      rw [htail, hafter] at ih ⊢
      apply Handled.error
      · exact ih (.of_lt (Nat.le_succ 1) hharm)
      · exact startsNone_of_not_tail hbyte hfoll
  case case10 source b0 rest hascii count hcnt hfew filled after character hdec ih =>
    intro bytes hready
    have hfilled : filled.length = (b0 :: rest).length + (count - (b0 :: rest).length) :=
      length_filled (not_lt.mp hfew)
    have hbds : 2 ≤ count ∧ count ≤ 4 := nonASCIISequenceLength_bounds hcnt
    have hcnt' : nonASCIISequenceLength b0 ≤ filled.length := by omega
    obtain ⟨c, rfl, hc⟩ : ∃ c, c.toNat = character ∧ utf8 c = filled.take count :=
      exists_of_some hcnt hcnt' hdec
    rw [appendCharacter_toNat]
    have hharm := hready.harmless
    have hlen := hready.length_le
    cases hready.stands with
    | same =>
      have happ : b0 :: rest ++ (source ++ future) =
          b0 :: (filled.tail ++ (after ++ future)) := filled_append source future
      have hsplit : b0 :: filled.tail = filled := rfl
      rw [happ, ← cons_append, hsplit] at hharm ⊢
      by_cases hle : (b0 :: rest).length ≤ count
      · have hempty : filled.take (filled.length - count) = [] := by
          rw [show filled.length - count = 0 by omega, take_zero]
        have hwhole : utf8 c = filled := by
          rw [hc]
          apply take_of_length_le
          omega
        rw [hempty] at ih ⊢
        rw [← hwhole]
        apply Handled.character
        exact ih ⟨.same [], Nat.zero_le _, hharm.of_append filled, fun h => by simp at h⟩
      · have hthree : (b0 :: rest).length = 3 := by omega
        have hcount2 : count = 2 := by omega
        obtain ⟨b1, byte, rfl⟩ := length_eq_two.mp (Nat.succ.inj hthree)
        have hthis : filled = [b0, b1, byte] := by simp [filled, hcount2]
        have hafter : after = source := by simp [after, hcount2]
        rw [hthis, hcount2] at hc
        rw [hthis] at hharm
        rw [hthis, hafter, hcount2] at ih ⊢
        rw [hafter] at hharm
        obtain ⟨hlow, hhigh, htail, -⟩ := utf8_two_iff.mp hc
        have hstand : Stands (source ++ future) [b0] [byte] := by
          rcases hready.full hthree with ⟨four, hfour, hisfour⟩ | ⟨four, hfour, hbehind⟩
          · cases hfour
            unfold IsFour at hisfour
            omega
          · rcases hbehind _ ((mem_tails _ _).mpr suffix_rfl) hfour ⟨hlow, hhigh⟩ htail with
              rfl | ⟨hbyte, hfoll⟩
            · exact .same _
            · exact .stale ⟨hlow, hhigh⟩ hbyte hfoll
        have hbytes : [b0, b1, byte] ++ (source ++ future) =
            utf8 c ++ ([byte] ++ (source ++ future)) := by
          rw [hc]
          rfl
        rw [hbytes] at hharm ⊢
        apply Handled.character
        exact ih ⟨hstand, Nat.le_add_left _ _, hharm.of_append _, fun h => by simp at h⟩
    | @stale _ byte htwo hbyte hfoll =>
      obtain ⟨next, source, rfl⟩ := exists_next htwo hfew
      have hpair : utf8 c = [b0, next] := by
        rw [hc]
        simp [filled, count, nonASCIISequenceLength_of_two htwo]
      exact absurd (utf8_two_iff.mp hpair).2.2.1 (hfoll next rfl)

end Buffer

end WebKit.TextCodecUTF8
