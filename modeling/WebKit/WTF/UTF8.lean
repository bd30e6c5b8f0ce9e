import WebKit.Foundation.BoundedConversion
import WebKit.Foundation.Unicode

/-!
Conversion between UTF-16 and UTF-8. Characters are read one by one at the front of the source and
written as a whole; where the target has no room for one, the source is left before it. The check of
a sequence of bytes looks at the second byte after the first: after `0xED` and `0xF4` it bounds the
second byte only from above.
-/

namespace WebKit.UTF8

open List BoundedConversion Unicode

inductive ConversionResult where
  | conversionOK
  | sourceExhausted
  | targetExhausted
  | sourceIllegal
  deriving DecidableEq

def isASCII (b0 : UInt8) : Bool := b0.toNat < 0x80

def inlineUTF8SequenceLengthNonASCII (b0 : UInt8) : ℕ :=
  if b0 &&& 0xC0 ≠ 0xC0 then 0
  else if b0 &&& 0xE0 = 0xC0 then 2
  else if b0 &&& 0xF0 = 0xE0 then 3
  else if b0 &&& 0xF8 = 0xF0 then 4
  else 0

def inlineUTF8SequenceLength (b0 : UInt8) : ℕ :=
  if isASCII b0 then 1 else inlineUTF8SequenceLengthNonASCII b0

def firstByteMark : List ℕ := [0x00, 0x00, 0xC0, 0xE0, 0xF0, 0xF8, 0xFC]

def byteMask : ℕ := 0xBF

def byteMark : ℕ := 0x80

def replacementCharacter : ℕ := 0xFFFD

def writeSequence (ch bytesToWrite : ℕ) : List UInt8 :=
  let (ch, target) :=
    if 4 ≤ bytesToWrite then (ch >>> 6, [UInt8.ofNat ((ch ||| byteMark) &&& byteMask)]) else (ch, [])
  let (ch, target) :=
    if 3 ≤ bytesToWrite then (ch >>> 6, UInt8.ofNat ((ch ||| byteMark) &&& byteMask) :: target)
    else (ch, target)
  let (ch, target) :=
    if 2 ≤ bytesToWrite then (ch >>> 6, UInt8.ofNat ((ch ||| byteMark) &&& byteMask) :: target)
    else (ch, target)
  UInt8.ofNat (ch ||| firstByteMark.getD bytesToWrite 0) :: target

def writeCharacter (ch : ℕ) : List UInt8 :=
  if ch < 0x80 then writeSequence ch 1
  else if ch < 0x800 then writeSequence ch 2
  else if ch < 0x10000 then writeSequence ch 3
  else if ch < 0x110000 then writeSequence ch 4
  else writeSequence replacementCharacter 3

def readUTF16 (strict : Bool) (unit : UInt16) (source : List UInt16) : Next UInt8 ConversionResult :=
  let ch := unit.toNat
  if ch ≥ 0xD800 ∧ ch ≤ 0xDBFF then
    match source with
    | unit2 :: _ =>
      let ch2 := unit2.toNat
      if ch2 ≥ 0xDC00 ∧ ch2 ≤ 0xDFFF then
        .emit 1 (writeCharacter (((ch - 0xD800) <<< 10) + (ch2 - 0xDC00) + 0x0010000))
      else if strict then .stop .sourceIllegal 0
      else .emit 0 (writeCharacter ch)
    | [] => .stop .sourceExhausted 0
  else if strict ∧ ch ≥ 0xDC00 ∧ ch ≤ 0xDFFF then .stop .sourceIllegal 0
  else .emit 0 (writeCharacter ch)

def convertUTF16ToUTF8 (source : List UInt16) (room : ℕ) (strict : Bool) :
    Outcome UInt16 UInt8 ConversionResult :=
  convert (readUTF16 strict) .conversionOK .targetExhausted source room

def isLegalSecond (b0 a : UInt8) : Bool :=
  if a.toNat > 0xBF then false
  else if b0 = 0xE0 then !(a.toNat < 0xA0)
  else if b0 = 0xED then !(a.toNat > 0x9F)
  else if b0 = 0xF0 then !(a.toNat < 0x90)
  else if b0 = 0xF4 then !(a.toNat > 0x8F)
  else !(a.toNat < 0x80)

def isLegalTail (a : UInt8) : Bool := !(a.toNat < 0x80 || a.toNat > 0xBF)

variable (source : List UInt8)

def isLegalUTF8 (length : ℕ) : Bool :=
  let b0 := source.getD 0 0
  (match length with
  | 1 => true
  | 2 => isLegalSecond b0 (source.getD 1 0)
  | 3 => isLegalTail (source.getD 2 0) && isLegalSecond b0 (source.getD 1 0)
  | 4 => isLegalTail (source.getD 3 0) && isLegalTail (source.getD 2 0) &&
    isLegalSecond b0 (source.getD 1 0)
  | _ => false) && !(b0.toNat ≥ 0x80 && b0.toNat < 0xC2) && !(b0.toNat > 0xF4)

def offsetsFromUTF8 : List ℕ := [0x00000000, 0x00003080, 0x000E2080, 0x03C82080, 0xFA082080, 0x82082080]

def readUTF8Sequence (sequence : List UInt8) (length : ℕ) : ℕ :=
  let character := (sequence.take length).foldl (fun character byte => character <<< 6 + byte.toNat) 0
  (character + (2 ^ 32 - offsetsFromUTF8.getD (length - 1) 0)) % 2 ^ 32

def readUTF8 (strict : Bool) (b0 : UInt8) (rest : List UInt8) : Next UInt16 ConversionResult :=
  let source := b0 :: rest
  let utf8SequenceLength := inlineUTF8SequenceLength b0
  if source.length < utf8SequenceLength then .stop .sourceExhausted 0
  else if !isLegalUTF8 source utf8SequenceLength then .stop .sourceIllegal 0
  else
    let character := readUTF8Sequence source utf8SequenceLength
    if character ≤ 0xFFFF then
      if 0xD800 ≤ character ∧ character ≤ 0xDFFF then
        if strict then .stop .sourceIllegal 1
        else .emit (utf8SequenceLength - 1) [UInt16.ofNat replacementCharacter]
      else .emit (utf8SequenceLength - 1) [UInt16.ofNat character]
    else if character ≤ 0x10FFFF then
      .emit (utf8SequenceLength - 1)
        [UInt16.ofNat ((character >>> 10) + 0xD7C0), UInt16.ofNat ((character &&& 0x3FF) ||| 0xDC00)]
    else if strict then .stop .sourceIllegal 1
    else .emit (utf8SequenceLength - 1) [UInt16.ofNat replacementCharacter]

def convertUTF8ToUTF16 (room : ℕ) (strict : Bool) : Outcome UInt8 UInt16 ConversionResult :=
  convert (readUTF8 strict) .conversionOK .targetExhausted source room

/-- The byte written for the low six bits. -/
theorem markedByte_eq (ch : ℕ) : (ch ||| byteMark) &&& byteMask = ch % 64 + 0x80 := by
  have hsmall : ∀ m < 2 ^ 8, (m ||| 0x80) &&& 0xBF = m % 64 + 0x80 := by decide +kernel
  have hlt : (ch ||| 0x80) &&& 0xBF < 2 ^ 8 := Nat.and_lt_two_pow _ (by decide)
  have hmod : (ch ||| 0x80) &&& 0xBF = (ch % 2 ^ 8 ||| 0x80) &&& 0xBF := by
    rw [← Nat.mod_eq_of_lt hlt, Nat.and_mod_two_pow, Nat.or_mod_two_pow]
  rw [byteMark, byteMask, hmod, hsmall _ (Nat.mod_lt _ (by decide))]
  omega

theorem or_mark {low : ℕ} (width high : ℕ) (h : low < 2 ^ width) :
    low ||| 2 ^ width * high = low + 2 ^ width * high := by
  rw [Nat.or_comm, add_comm, Nat.two_pow_add_eq_or_of_lt h]

theorem writeSequence_one (ch : ℕ) : writeSequence ch 1 = [UInt8.ofNat ch] := by
  calc writeSequence ch 1 = [UInt8.ofNat (ch ||| 0)] := rfl
    _ = _ := by rw [Nat.or_zero]

variable {ch : ℕ} {a b0 : UInt8}

theorem writeSequence_two (h : ch < 0x800) :
    writeSequence ch 2 = [UInt8.ofNat (ch / 64 % 0x20 + 0xC0), UInt8.ofNat (ch % 0x40 + 0x80)] := by
  have hfst : ch / 64 ||| 0xC0 = ch / 64 % 0x20 + 0xC0 := by
    rw [Nat.mod_eq_of_lt (by omega)]
    exact or_mark 5 6 (by omega)
  calc writeSequence ch 2
      = [UInt8.ofNat (ch >>> 6 ||| 0xC0), UInt8.ofNat ((ch ||| byteMark) &&& byteMask)] := rfl
    _ = _ := by rw [Nat.shiftRight_eq_div_pow, hfst, markedByte_eq]

theorem writeSequence_three (h : ch < 0x10000) : writeSequence ch 3 =
    [UInt8.ofNat (ch / 4096 % 0x10 + 0xE0), UInt8.ofNat (ch / 64 % 0x40 + 0x80),
      UInt8.ofNat (ch % 0x40 + 0x80)] := by
  have hdiv : ch / 64 / 64 = ch / 4096 := Nat.div_div_eq_div_mul _ _ _
  have hfst : ch / 4096 ||| 0xE0 = ch / 4096 % 0x10 + 0xE0 := by
    rw [Nat.mod_eq_of_lt (by omega)]
    exact or_mark 4 14 (by omega)
  calc writeSequence ch 3
      = [UInt8.ofNat (ch >>> 6 >>> 6 ||| 0xE0), UInt8.ofNat ((ch >>> 6 ||| byteMark) &&& byteMask),
        UInt8.ofNat ((ch ||| byteMark) &&& byteMask)] := rfl
    _ = _ := by
      rw [Nat.shiftRight_eq_div_pow, Nat.shiftRight_eq_div_pow, hdiv, hfst, markedByte_eq,
        markedByte_eq]

theorem writeSequence_four (h : ch < 0x110000) : writeSequence ch 4 =
    [UInt8.ofNat (ch / 262144 % 0x08 + 0xF0), UInt8.ofNat (ch / 4096 % 0x40 + 0x80),
      UInt8.ofNat (ch / 64 % 0x40 + 0x80), UInt8.ofNat (ch % 0x40 + 0x80)] := by
  have hdiv : ch / 64 / 64 = ch / 4096 := Nat.div_div_eq_div_mul _ _ _
  have hdiv' : ch / 4096 / 64 = ch / 262144 := Nat.div_div_eq_div_mul _ _ _
  have hfst : ch / 262144 ||| 0xF0 = ch / 262144 % 0x08 + 0xF0 := by
    rw [Nat.mod_eq_of_lt (by omega)]
    exact or_mark 3 30 (by omega)
  calc writeSequence ch 4
      = [UInt8.ofNat (ch >>> 6 >>> 6 >>> 6 ||| 0xF0),
        UInt8.ofNat ((ch >>> 6 >>> 6 ||| byteMark) &&& byteMask),
        UInt8.ofNat ((ch >>> 6 ||| byteMark) &&& byteMask),
        UInt8.ofNat ((ch ||| byteMark) &&& byteMask)] := rfl
    _ = _ := by
      rw [Nat.shiftRight_eq_div_pow, Nat.shiftRight_eq_div_pow, Nat.shiftRight_eq_div_pow, hdiv,
        hdiv', hfst, markedByte_eq, markedByte_eq, markedByte_eq]

/-- What is written for a character is its sequence. -/
theorem writeCharacter_toNat (c : Char) : writeCharacter c.toNat = utf8 c := by
  have hscalar := isScalar_toNat c
  unfold IsScalar at hscalar
  rw [utf8_eq, writeCharacter]
  by_cases hone : c.toNat < 0x80
  · rw [if_pos hone, if_pos (by omega), writeSequence_one]
  by_cases htwo : c.toNat < 0x800
  · rw [if_neg hone, if_pos htwo, if_neg (by omega), if_pos (by omega), writeSequence_two htwo]
  by_cases hthree : c.toNat < 0x10000
  · rw [if_neg hone, if_neg htwo, if_pos hthree, if_neg (by omega), if_neg (by omega),
      if_pos (by omega), writeSequence_three hthree]
  · rw [if_neg hone, if_neg htwo, if_neg hthree, if_pos (by omega), if_neg (by omega),
      if_neg (by omega), if_neg (by omega), writeSequence_four (by omega)]

/-- A character in UTF-16 is read as such. -/
theorem codes_readUTF16 (strict : Bool) : Codes (readUTF16 strict) utf16 utf8 := by
  intro c rest
  rcases utf16_cases c with ⟨a, hunits⟩ | ⟨a, b, hunits⟩
  · have hc := utf16_one_iff.mp hunits
    have hscalar := isScalar_toNat c
    unfold IsScalar at hscalar
    refine ⟨a, [], hunits, ?_⟩
    rw [readUTF16.eq_def, if_neg (by omega), if_neg (by omega), ← hc, writeCharacter_toNat]
    rfl
  · obtain ⟨hlead, htrail, hc⟩ := utf16_two_iff.mp hunits
    unfold IsLead at hlead
    unfold IsTrail at htrail
    refine ⟨a, [b], hunits, ?_⟩
    rw [readUTF16.eq_def, singleton_append, if_pos (by omega)]
    dsimp only
    rw [if_pos (by omega), Nat.shiftLeft_eq, ← hc, writeCharacter_toNat]
    rfl

theorem eq_iff_toNat {byte : UInt8} (n : ℕ) (hn : n < 256) : byte = UInt8.ofNat n ↔ byte.toNat = n := by
  rw [eq_comm, eq_ofNat_iff hn]

theorem isLegalTail_iff : isLegalTail a ↔ IsTail a := by
  unfold isLegalTail IsTail
  simp only [Bool.not_eq_true', Bool.or_eq_false_iff, decide_eq_false_iff_not]
  omega

theorem isLegalSecond_iff : isLegalSecond b0 a ↔
    a.toNat ≤ 0xBF ∧ (b0.toNat = 0xE0 → 0xA0 ≤ a.toNat) ∧ (b0.toNat = 0xED → a.toNat ≤ 0x9F) ∧
      (b0.toNat = 0xF0 → 0x90 ≤ a.toNat) ∧ (b0.toNat = 0xF4 → a.toNat ≤ 0x8F) ∧
      (b0.toNat ≠ 0xED → b0.toNat ≠ 0xF4 → 0x80 ≤ a.toNat) := by
  have hE0 : b0 = 0xE0 ↔ b0.toNat = 0xE0 := eq_iff_toNat 0xE0 (by decide)
  have hED : b0 = 0xED ↔ b0.toNat = 0xED := eq_iff_toNat 0xED (by decide)
  have hF0 : b0 = 0xF0 ↔ b0.toNat = 0xF0 := eq_iff_toNat 0xF0 (by decide)
  have hF4 : b0 = 0xF4 ↔ b0.toNat = 0xF4 := eq_iff_toNat 0xF4 (by decide)
  unfold isLegalSecond
  split_ifs with h h1 h2 h3 h4 <;> simp only [hE0, hED, hF0, hF4] at * <;> simp <;> omega

/-- The units of a pair of surrogates. -/
theorem lead_eq (h : 0x10000 ≤ ch) : (ch >>> 10) + 0xD7C0 = 0xD800 + (ch - 0x10000) / 0x400 := by
  rw [Nat.shiftRight_eq_div_pow]
  omega

theorem trail_eq (h : 0x10000 ≤ ch) :
    (ch &&& 0x3FF) ||| 0xDC00 = 0xDC00 + (ch - 0x10000) % 0x400 := by
  have hmask : ch &&& 0x3FF = ch % 0x400 := Nat.and_two_pow_sub_one_eq_mod _ 10
  calc (ch &&& 0x3FF) ||| 0xDC00
      = ch % 0x400 + 0xDC00 := by
        rw [hmask]
        exact or_mark 10 55 (Nat.mod_lt _ (by decide))
    _ = 0xDC00 + (ch - 0x10000) % 0x400 := by omega

inductive Accepted : UInt8 → List UInt8 → ℕ → Prop
  | one {b0 : UInt8} (h0 : b0.toNat < 0x80) : Accepted b0 [] b0.toNat
  | two {b0 b1 : UInt8} (h0 : 0xC2 ≤ b0.toNat ∧ b0.toNat ≤ 0xDF)
      (h1 : isLegalSecond b0 b1 = true) : Accepted b0 [b1] (b0.toNat * 64 + b1.toNat - 0x3080)
  | three {b0 b1 b2 : UInt8} (h0 : 0xE0 ≤ b0.toNat ∧ b0.toNat ≤ 0xEF)
      (h1 : isLegalSecond b0 b1 = true) (h2 : IsTail b2) :
      Accepted b0 [b1, b2] (b0.toNat * 4096 + b1.toNat * 64 + b2.toNat - 0xE2080)
  | four {b0 b1 b2 b3 : UInt8} (h0 : 0xF0 ≤ b0.toNat ∧ b0.toNat ≤ 0xF4)
      (h1 : isLegalSecond b0 b1 = true) (h2 : IsTail b2) (h3 : IsTail b3) :
      Accepted b0 [b1, b2, b3]
        (b0.toNat * 262144 + b1.toNat * 4096 + b2.toNat * 64 + b3.toNat - 0x3C82080)

theorem inlineUTF8SequenceLength_eq (b0 : UInt8) : inlineUTF8SequenceLength b0 =
    if b0.toNat < 0x80 then 1 else if b0.toNat < 0xC0 then 0 else if b0.toNat < 0xE0 then 2
    else if b0.toNat < 0xF0 then 3 else if b0.toNat < 0xF8 then 4 else 0 := by
  have hall : ∀ n < 256, inlineUTF8SequenceLength (UInt8.ofNat n) =
      if n < 0x80 then 1 else if n < 0xC0 then 0 else if n < 0xE0 then 2
      else if n < 0xF0 then 3 else if n < 0xF8 then 4 else 0 := by decide +kernel
  have hbyte := hall b0.toNat b0.toNat_lt
  rw [UInt8.ofNat_toNat] at hbyte
  exact hbyte

namespace Accepted

variable {b0 : UInt8} {tail : List UInt8} {ch : ℕ}

section

variable (h : Accepted b0 tail ch)

include h

theorem length_eq : inlineUTF8SequenceLength b0 = tail.length + 1 := by
  rw [inlineUTF8SequenceLength_eq]
  cases h with
  | one h0 => rw [if_pos h0]; rfl
  | two h0 h1 => rw [if_neg (by omega), if_neg (by omega), if_pos (by omega)]; rfl
  | three h0 h1 h2 =>
    rw [if_neg (by omega), if_neg (by omega), if_neg (by omega), if_pos (by omega)]
    rfl
  | four h0 h1 h2 h3 =>
    rw [if_neg (by omega), if_neg (by omega), if_neg (by omega), if_neg (by omega),
      if_pos (by omega)]
    rfl

/-- The code point of an accepted sequence is a character. -/
theorem isScalar : IsScalar ch := by
  unfold IsScalar
  cases h with
  | one h0 => omega
  | two h0 h1 =>
    rw [isLegalSecond_iff] at h1
    omega
  | three h0 h1 h2 =>
    rw [isLegalSecond_iff] at h1
    unfold IsTail at h2
    omega
  | four h0 h1 h2 h3 =>
    rw [isLegalSecond_iff] at h1
    unfold IsTail at h2 h3
    omega

theorem isLegalUTF8_eq (other : List UInt8) :
    isLegalUTF8 (b0 :: (tail ++ other)) (tail.length + 1) := by
  cases h with
  | one h0 =>
    simp [isLegalUTF8]
    omega
  | two h0 h1 =>
    simp [isLegalUTF8, h1]
    omega
  | three h0 h1 h2 =>
    simp [isLegalUTF8, h1, isLegalTail_iff.mpr h2]
    omega
  | four h0 h1 h2 h3 =>
    simp [isLegalUTF8, h1, isLegalTail_iff.mpr h2, isLegalTail_iff.mpr h3]
    omega

theorem readUTF8Sequence_eq (other : List UInt8) :
    readUTF8Sequence (b0 :: (tail ++ other)) (tail.length + 1) = ch := by
  cases h with
  | one h0 =>
    simp [readUTF8Sequence, offsetsFromUTF8]
  | two h0 h1 =>
    rw [isLegalSecond_iff] at h1
    simp [readUTF8Sequence, offsetsFromUTF8, Nat.shiftLeft_eq]
    omega
  | three h0 h1 h2 =>
    rw [isLegalSecond_iff] at h1
    unfold IsTail at h2
    simp [readUTF8Sequence, offsetsFromUTF8, Nat.shiftLeft_eq]
    omega
  | four h0 h1 h2 h3 =>
    rw [isLegalSecond_iff] at h1
    unfold IsTail at h2 h3
    simp [readUTF8Sequence, offsetsFromUTF8, Nat.shiftLeft_eq]
    omega

end

/-- An accepted sequence is read as its character, whatever stands behind it. -/
theorem readUTF8_eq {c : Char} (h : Accepted b0 tail c.toNat) (strict : Bool) (other : List UInt8) :
    readUTF8 strict b0 (tail ++ other) = .emit tail.length (utf16 c) := by
  have hscalar := h.isScalar
  unfold IsScalar at hscalar
  rw [readUTF8, h.length_eq, h.isLegalUTF8_eq, h.readUTF8Sequence_eq,
    if_neg (by rw [length_cons, length_append]; omega), utf16]
  rw [Bool.not_true, if_neg Bool.false_ne_true, Nat.add_sub_cancel]
  by_cases hbmp : c.toNat < 0x10000
  · rw [if_pos (by omega), if_neg (by omega), if_pos hbmp]
  · rw [if_neg (by omega), if_pos (by omega), if_neg hbmp, lead_eq (by omega), trail_eq (by omega)]

/-- The sequence of a character is accepted. -/
theorem of_utf8 {c : Char} (h : utf8 c = b0 :: tail) : Accepted b0 tail c.toNat := by
  rcases utf8_cases c with ⟨a, hc⟩ | ⟨a, b, hc⟩ | ⟨a, b, d, hc⟩ | ⟨a, b, d, e, hc⟩
  · obtain ⟨rfl, rfl⟩ : a = b0 ∧ [] = tail := cons_eq_cons.mp (hc.symm.trans h)
    obtain ⟨h0, hval⟩ := utf8_one_iff.mp hc
    rw [hval]
    exact .one h0
  · obtain ⟨rfl, rfl⟩ : a = b0 ∧ [b] = tail := cons_eq_cons.mp (hc.symm.trans h)
    obtain ⟨h0, h0', h1, hval⟩ := utf8_two_iff.mp hc
    unfold IsTail at h1
    have hsnd : isLegalSecond a b := isLegalSecond_iff.mpr (by omega)
    convert Accepted.two ⟨h0, h0'⟩ hsnd using 1
    omega
  · obtain ⟨rfl, rfl⟩ : a = b0 ∧ [b, d] = tail := cons_eq_cons.mp (hc.symm.trans h)
    obtain ⟨h0, h1, h2, hE0, hED, hval⟩ := utf8_three_iff.mp hc
    have htail := h2
    unfold IsTail at h1 h2
    have hsnd : isLegalSecond a b := isLegalSecond_iff.mpr (by omega)
    convert Accepted.three h0 hsnd htail using 1
    omega
  · obtain ⟨rfl, rfl⟩ : a = b0 ∧ [b, d, e] = tail := cons_eq_cons.mp (hc.symm.trans h)
    obtain ⟨h0, h1, h2, h3, hF0, hF4, hval⟩ := utf8_four_iff.mp hc
    have htail := h2
    have htail' := h3
    unfold IsTail at h1 h2 h3
    have hsnd : isLegalSecond a b := isLegalSecond_iff.mpr (by omega)
    convert Accepted.four h0 hsnd htail htail' using 1
    omega

end Accepted

variable {rest : List UInt8} {strict : Bool}

/-- What is checked is accepted. -/
theorem exists_accepted (hlen : inlineUTF8SequenceLength b0 ≤ rest.length + 1)
    (hlegal : isLegalUTF8 (b0 :: rest) (inlineUTF8SequenceLength b0)) :
    ∃ tail other ch, rest = tail ++ other ∧ Accepted b0 tail ch := by
  rw [inlineUTF8SequenceLength_eq] at hlen hlegal
  split_ifs at hlen hlegal with hone hzero htwo hthree hfour
  · exact ⟨[], rest, _, rfl, .one hone⟩
  · simp [isLegalUTF8] at hlegal
  · obtain _ | ⟨b1, rest⟩ := rest
    · simp at hlen
    simp [isLegalUTF8] at hlegal
    exact ⟨[b1], rest, _, rfl, .two (by omega) hlegal.1.1⟩
  · obtain _ | ⟨b1, _ | ⟨b2, rest⟩⟩ := rest
    · simp at hlen
    · simp at hlen
    simp [isLegalUTF8, isLegalTail_iff] at hlegal
    exact ⟨[b1, b2], rest, _, rfl, .three (by omega) hlegal.1.1.2 hlegal.1.1.1⟩
  · obtain _ | ⟨b1, _ | ⟨b2, _ | ⟨b3, rest⟩⟩⟩ := rest
    · simp at hlen
    · simp at hlen
    · simp at hlen
    simp [isLegalUTF8, isLegalTail_iff] at hlegal
    exact ⟨[b1, b2, b3], rest, _, rfl, .four (by omega) hlegal.1.1.2 hlegal.1.1.1.2 hlegal.1.1.1.1⟩
  · simp [isLegalUTF8] at hlegal

/-- A character is read only where a sequence is accepted. -/
theorem exists_accepted_of_readUTF8 {more : ℕ} {units : List UInt16}
    (h : readUTF8 strict b0 rest = .emit more units) :
    ∃ tail other c, rest = tail ++ other ∧ Accepted b0 tail c.toNat ∧ more = tail.length ∧
      units = utf16 c := by
  have hchecked : inlineUTF8SequenceLength b0 ≤ rest.length + 1 ∧
      isLegalUTF8 (b0 :: rest) (inlineUTF8SequenceLength b0) := by
    rw [readUTF8] at h
    split_ifs at h with hshort hillegal
    all_goals
      rw [length_cons] at hshort
      exact ⟨by omega, by simpa using hillegal⟩
  obtain ⟨tail, other, ch, rfl, hacc⟩ := exists_accepted hchecked.1 hchecked.2
  obtain ⟨c, rfl⟩ := exists_toNat_eq hacc.isScalar
  rw [hacc.readUTF8_eq] at h
  injection h with hmore hunits
  exact ⟨tail, other, c, rfl, hacc, hmore.symm, hunits.symm⟩

theorem codes_readUTF8 (strict : Bool) : Codes (readUTF8 strict) utf8 utf16 := by
  intro c rest
  obtain ⟨b0, tail, hc⟩ : ∃ b0 tail, utf8 c = b0 :: tail := by
    rcases utf8_cases c with ⟨a, hc⟩ | ⟨a, b, hc⟩ | ⟨a, b, d, hc⟩ | ⟨a, b, d, e, hc⟩
    all_goals exact ⟨_, _, hc⟩
  exact ⟨b0, tail, hc, (Accepted.of_utf8 hc).readUTF8_eq strict rest⟩

theorem local_readUTF8 (strict : Bool) : Local (readUTF8 strict) := by
  intro b0 rest more units h
  obtain ⟨tail, other, c, rfl, hacc, rfl, rfl⟩ := exists_accepted_of_readUTF8 h
  refine ⟨by rw [length_append]; omega, fun another => ?_⟩
  rw [take_left]
  exact hacc.readUTF8_eq strict another

def SecondBounded (b a : UInt8) : Prop := b = 0xED ∨ b = 0xF4 → 0x80 ≤ a.toNat

instance : DecidableRel SecondBounded := fun _ _ => inferInstanceAs (Decidable (_ → _))

theorem secondBounded_iff {b : UInt8} :
    SecondBounded b a ↔ (b.toNat = 0xED ∨ b.toNat = 0xF4 → 0x80 ≤ a.toNat) := by
  rw [SecondBounded, show b = 0xED ↔ b.toNat = 0xED from eq_iff_toNat 0xED (by decide),
    show b = 0xF4 ↔ b.toNat = 0xF4 from eq_iff_toNat 0xF4 (by decide)]

namespace Accepted

variable {b0 : UInt8} {tail : List UInt8} {c : Char}

/-- An accepted sequence is as long as the one of its character, and is that one where the second
byte is bounded. -/
theorem utf8_eq_iff (h : Accepted b0 tail c.toNat) :
    (utf8 c).length = tail.length + 1 ∧ (utf8 c = b0 :: tail ↔ (b0 :: tail).IsChain SecondBounded) := by
  generalize hch : c.toNat = ch at h
  rw [length_utf8]
  cases h with
  | one h0 =>
    rw [if_pos (by omega)]
    exact ⟨rfl, iff_of_true (utf8_one_iff.mpr ⟨h0, hch⟩) (by simp)⟩
  | @two b1 h0 h1 =>
    rw [isLegalSecond_iff] at h1
    rw [if_neg (by omega), if_pos (by omega), utf8_two_iff, isChain_cons_cons,
      secondBounded_iff, IsTail]
    simp only [length_cons, length_nil, List.IsChain.singleton, and_true, true_and]
    omega
  | @three b1 b2 h0 h1 h2 =>
    rw [isLegalSecond_iff] at h1
    unfold IsTail at h2
    rw [if_neg (by omega), if_neg (by omega), if_pos (by omega), utf8_three_iff,
      isChain_cons_cons, isChain_cons_cons, secondBounded_iff, secondBounded_iff, IsTail,
      IsTail]
    simp only [length_cons, length_nil, List.IsChain.singleton, and_true, true_and]
    omega
  | @four b1 b2 b3 h0 h1 h2 h3 =>
    rw [isLegalSecond_iff] at h1
    unfold IsTail at h2 h3
    rw [if_neg (by omega), if_neg (by omega), if_neg (by omega), utf8_four_iff,
      isChain_cons_cons, isChain_cons_cons, isChain_cons_cons, secondBounded_iff,
      secondBounded_iff, secondBounded_iff, IsTail, IsTail, IsTail]
    simp only [length_cons, length_nil, List.IsChain.singleton, and_true, true_and]
    omega

/-- No bound is at stake behind the last byte of an accepted sequence. -/
theorem secondBounded_last (h : Accepted b0 tail c.toNat) {last : UInt8}
    (hlast : last ∈ (b0 :: tail).getLast?) (a : UInt8) : SecondBounded last a := by
  rw [secondBounded_iff]
  generalize c.toNat = ch at h
  cases h with
  | one h0 =>
    obtain rfl : b0 = last := by simpa using hlast
    omega
  | @two b1 h0 h1 =>
    obtain rfl : b1 = last := by simpa using hlast
    rw [isLegalSecond_iff] at h1
    omega
  | @three b1 b2 h0 h1 h2 =>
    obtain rfl : b2 = last := by simpa using hlast
    unfold IsTail at h2
    omega
  | @four b1 b2 b3 h0 h1 h2 h3 =>
    obtain rfl : b3 = last := by simpa using hlast
    unfold IsTail at h3
    omega

end Accepted

/-- What was consumed is as long as the sequences of the characters that were written, and consists
of them where the second bytes are bounded. -/
def Decodes (source left : List UInt8) (target : List UInt16) : Prop :=
  ∃ (consumed : List UInt8) (characters : List Char), source = consumed ++ left ∧
    target = characters.flatMap utf16 ∧ (characters.flatMap utf8).length = consumed.length ∧
    (characters.flatMap utf8 = consumed ↔ consumed.IsChain SecondBounded)

theorem decodes_convertUTF8ToUTF16 (room : ℕ) (strict : Bool) :
    Decodes source (convertUTF8ToUTF16 source room strict).source
      (convertUTF8ToUTF16 source room strict).target := by
  refine convert_invariant ?_ ?_ source room
  · intro source
    exact ⟨[], [], rfl, rfl, rfl, iff_of_true rfl List.IsChain.nil⟩
  · intro b0 rest more units left target hnext ⟨consumed, characters, hsrc, htgt, hlen, hiff⟩
    obtain ⟨tail, other, c, rfl, hacc, rfl, rfl⟩ := exists_accepted_of_readUTF8 hnext
    obtain ⟨hlen', hiff'⟩ := hacc.utf8_eq_iff
    rw [drop_left] at hsrc
    refine ⟨b0 :: tail ++ consumed, c :: characters, ?_, ?_, ?_, ?_⟩
    · rw [hsrc, append_assoc, cons_append]
    · rw [htgt, flatMap_cons]
    · rw [flatMap_cons, length_append, length_append, hlen, hlen', length_cons]
    · have hlast : ∀ last ∈ (b0 :: tail).getLast?, ∀ head ∈ consumed.head?,
          SecondBounded last head := fun last hlast head _ => hacc.secondBounded_last hlast head
      rw [flatMap_cons, isChain_append, ← hiff', ← hiff]
      constructor
      · intro happ
        obtain ⟨hc, hchars⟩ := append_inj happ hlen'
        exact ⟨hc, hchars, hlast⟩
      · intro ⟨hc, hchars, _⟩
        rw [hc, hchars]

theorem readUTF8_stop {result : ConversionResult} {needed : ℕ}
    (h : readUTF8 strict b0 rest = .stop result needed) :
    result = .sourceExhausted ∨ result = .sourceIllegal := by
  rw [readUTF8] at h
  dsimp only at h
  split_ifs at h
  all_goals
    injection h with hres
    simp [← hres]

theorem readUTF16_stop {unit : UInt16} {rest : List UInt16} {result : ConversionResult} {needed : ℕ}
    (h : readUTF16 strict unit rest = .stop result needed) :
    result = .sourceExhausted ∨ result = .sourceIllegal := by
  rw [readUTF16.eq_def] at h
  dsimp only at h
  repeat' split at h
  all_goals cases h
  · exact Or.inr rfl
  · exact Or.inl rfl
  · exact Or.inr rfl

def MayPart (unit following : UInt16) : Prop := ¬ (IsLead unit ∧ IsTrail following)

/-- A character is read to its end. -/
theorem mayPart_of_readUTF16 {unit : UInt16} {rest : List UInt16} {more : ℕ} {bytes : List UInt8}
    (h : readUTF16 strict unit rest = .emit more bytes) (last : UInt16)
    (hlast : last ∈ (unit :: rest.take more).getLast?) (head : UInt16)
    (hhead : head ∈ (rest.drop more).head?) : MayPart last head := by
  rw [readUTF16.eq_def] at h
  dsimp only at h
  unfold MayPart IsLead IsTrail
  repeat' split at h
  all_goals cases h
  · obtain rfl := by simpa using hlast
    omega
  · obtain rfl := by simpa using hhead
    omega
  · obtain rfl : unit = last := by simpa using hlast
    omega

theorem convertUTF16ToUTF8_resumes (units : List UInt16) (strict : Bool) :
    Resumes (convertUTF16ToUTF8 · · strict) .targetExhausted units := by
  apply convert_resumes
  · intro first rest result needed hstop
    rcases readUTF16_stop hstop with rfl | rfl
    all_goals decide
  · decide

theorem convertUTF8ToUTF16_resumes (bytes : List UInt8) (strict : Bool) :
    Resumes (convertUTF8ToUTF16 · · strict) .targetExhausted bytes := by
  apply convert_resumes
  · intro first rest result needed hstop
    rcases readUTF8_stop hstop with rfl | rfl
    all_goals decide
  · decide

/-- A conversion of characters into UTF-8, and back. -/
theorem convert_characters (characters : List Char) (strict : Bool) {room : ℕ}
    (hroom : (characters.flatMap utf8).length ≤ room) :
    convertUTF16ToUTF8 (characters.flatMap utf16) room strict =
      ⟨.conversionOK, [], characters.flatMap utf8⟩ :=
  convert_flatMap (codes_readUTF16 strict) characters hroom

/-- What a successful conversion from UTF-8 writes is converted back into the bytes it has read just
where the second bytes are bounded. -/
theorem convert_back_iff {bytes : List UInt8} {room : ℕ}
    (hok : (convertUTF8ToUTF16 bytes room true).result = .conversionOK) {large : ℕ}
    (hlarge : bytes.length ≤ large) :
    convertUTF16ToUTF8 (convertUTF8ToUTF16 bytes room true).target large true =
        ⟨.conversionOK, [], bytes⟩ ↔
      bytes.IsChain SecondBounded := by
  have hsrc : (convertUTF8ToUTF16 bytes room true).source = [] := by
    refine source_eq_nil ?_ (by decide) hok
    intro first rest result needed hstop
    rcases readUTF8_stop hstop with rfl | rfl
    all_goals decide
  obtain ⟨consumed, characters, hbytes, htgt, hlen, hiff⟩ :=
    decodes_convertUTF8ToUTF16 bytes room true
  rw [hsrc, append_nil] at hbytes
  subst hbytes
  rw [htgt, convert_characters characters true (by rw [hlen]; exact hlarge), ← hiff,
    Outcome.mk.injEq]
  simp only [true_and]

/-- Converting there and back: characters come back from UTF-8, bytes come back where the second
bytes are bounded, and both conversions stop between characters and can be taken up again. -/
theorem conversion_correct_iff (units : List UInt16) (bytes : List UInt8) (room : ℕ) (strict : Bool) :
    (NoUnpairedSurrogate units → ∃ converted : List UInt8, (∀ large, converted.length ≤ large →
        convertUTF16ToUTF8 units large true = ⟨.conversionOK, [], converted⟩) ∧
      ∀ large, units.length ≤ large →
        convertUTF8ToUTF16 converted large strict = ⟨.conversionOK, [], units⟩) ∧
    ((convertUTF8ToUTF16 bytes room true).result = .conversionOK → ∀ large, bytes.length ≤ large →
        (convertUTF16ToUTF8 (convertUTF8ToUTF16 bytes room true).target large true =
            ⟨.conversionOK, [], bytes⟩ ↔ bytes.IsChain SecondBounded)) ∧
    (LeftBetween MayPart units (convertUTF16ToUTF8 units room strict).source ∧
      Resumes (convertUTF16ToUTF8 · · strict) .targetExhausted units) ∧
    (∃ consumed, bytes = consumed ++ (convertUTF8ToUTF16 bytes room strict).source ∧
      convertUTF8ToUTF16 consumed (convertUTF8ToUTF16 bytes room strict).target.length strict =
        ⟨.conversionOK, [], (convertUTF8ToUTF16 bytes room strict).target⟩) ∧
    Resumes (convertUTF8ToUTF16 · · strict) .targetExhausted bytes := by
  refine ⟨?_, ?_, ⟨?_, convertUTF16ToUTF8_resumes units strict⟩,
    convert_consumesWhole (local_readUTF8 strict) bytes room, convertUTF8ToUTF16_resumes bytes strict⟩
  · intro hunits
    obtain ⟨characters, rfl⟩ := hunits.exists_flatMap
    refine ⟨characters.flatMap utf8, ?_, ?_⟩
    · intro large hlarge
      exact convert_characters characters true hlarge
    · intro large hlarge
      exact convert_flatMap (codes_readUTF8 strict) characters hlarge
  · intro hok large hlarge
    exact convert_back_iff hok hlarge
  · apply convert_leftBetween
    intro first rest more converted hnext
    exact mayPart_of_readUTF16 hnext

theorem conversion_correct_iff_euro :
    convertUTF8ToUTF16 [0xE2, 0x82, 0xAC] 1 true = ⟨.conversionOK, [], [0x20AC]⟩ ∧
      convertUTF16ToUTF8 (convertUTF8ToUTF16 [0xE2, 0x82, 0xAC] 1 true).target 3 true =
        ⟨.conversionOK, [], [0xE2, 0x82, 0xAC]⟩ := by
  have hread : readUTF8 true 0xE2 [0x82, 0xAC] = .emit 2 [0x20AC] := rfl
  have hok : convertUTF8ToUTF16 [0xE2, 0x82, 0xAC] 1 true = ⟨.conversionOK, [], [0x20AC]⟩ := by
    rw [convertUTF8ToUTF16, convert_emit_of_le hread (by decide)]
    simp [convert_nil, Outcome.prepend]
  refine ⟨hok, ((conversion_correct_iff [] [0xE2, 0x82, 0xAC] 1 true).2.1 ?_ 3 (by decide)).mpr
    (by decide)⟩
  rw [hok]

/-- The bytes `ED 41 80` are taken for one character, which is written as `EC 81 80`. -/
theorem not_convert_back_low_second :
    convertUTF8ToUTF16 [0xED, 0x41, 0x80] 1 true = ⟨.conversionOK, [], [0xC040]⟩ ∧
      convertUTF16ToUTF8 [0xC040] 3 true = ⟨.conversionOK, [], [0xEC, 0x81, 0x80]⟩ := by
  have hread : readUTF8 true 0xED [0x41, 0x80] = .emit 2 [0xC040] := rfl
  have hback : readUTF16 true 0xC040 [] = .emit 0 [0xEC, 0x81, 0x80] := rfl
  constructor
  · rw [convertUTF8ToUTF16, convert_emit_of_le hread (by decide)]
    simp [convert_nil, Outcome.prepend]
  · rw [convertUTF16ToUTF8, convert_emit_of_le hback (by decide)]
    simp [convert_nil, Outcome.prepend]

end WebKit.UTF8
