import WebKit.Foundation.LittleEndian

/-!
The frames of a WebSocket connection and the bytes they are sent as. A frame starts with two bytes
that hold its flags, its opcode and a short form of its payload length; a longer length stands in an
extension of two or of eight bytes. A masked frame has a key before the payload, and the payload is
masked and unmasked in place.
-/

namespace WebKit.WebSocket

open LittleEndian
open List (append_assoc length_append length_take length_drop take_add)

def finalBit : UInt8 := 0x80
def compressBit : UInt8 := 0x40
def reserved2Bit : UInt8 := 0x20
def reserved3Bit : UInt8 := 0x10
def opCodeMask : UInt8 := 0xF
def maskBit : UInt8 := 0x80
def payloadLengthMask : UInt8 := 0x7F
def maxPayloadLengthWithoutExtendedLengthField : ℕ := 125
def payloadLengthWithTwoByteExtendedLengthField : ℕ := 126
def payloadLengthWithEightByteExtendedLengthField : ℕ := 127
def maskingKeyWidthInBytes : ℕ := 4
def maxPayloadLength : ℕ := 0x7FFFFFFFFFFFFFFF

structure Frame where
  opCode : UInt8
  final : Bool
  compress : Bool
  reserved2 : Bool
  reserved3 : Bool
  masked : Bool
  payload : List UInt8
  deriving DecidableEq

inductive ParseFrameResult where
  | frameOK (frame : Frame) (frameEnd : ℕ)
  | frameIncomplete
  | frameError (errorString : String)
  deriving DecidableEq

def readExtendedLength (field : List UInt8) : ℕ :=
  field.foldl (fun length byte => (length <<< 8) % 2 ^ 64 ||| byte.toNat) 0

variable (data : List UInt8)

def parsePayloadLength (secondByte : UInt8) : Except ParseFrameResult (ℕ × ℕ) :=
  let payloadLength64 := (secondByte &&& payloadLengthMask).toNat
  if payloadLength64 > maxPayloadLengthWithoutExtendedLengthField then
    let extendedPayloadLengthSize :=
      if payloadLength64 = payloadLengthWithTwoByteExtendedLengthField then 2 else 8
    if data.length - 2 < extendedPayloadLengthSize then .error .frameIncomplete
    else
      let payloadLength64 := readExtendedLength ((data.drop 2).take extendedPayloadLengthSize)
      if extendedPayloadLengthSize = 2 ∧ payloadLength64 ≤ maxPayloadLengthWithoutExtendedLengthField then
        .error (.frameError "The minimal number of bytes MUST be used to encode the length")
      else if extendedPayloadLengthSize = 8 ∧ payloadLength64 ≤ 0xFFFF then
        .error (.frameError "The minimal number of bytes MUST be used to encode the length")
      else .ok (payloadLength64, 2 + extendedPayloadLengthSize)
  else .ok (payloadLength64, 2)

def applyMask (maskingKeyStart payloadStart payloadLength : ℕ) : List UInt8 :=
  (List.range payloadLength).foldl (fun data i =>
    data.modify (payloadStart + i)
      (· ^^^ data.getD (maskingKeyStart + i % maskingKeyWidthInBytes) 0)) data

def parseFrame : ParseFrameResult × List UInt8 :=
  if data.length < 2 then (.frameIncomplete, data)
  else
    let firstByte := data.getD 0 0
    let secondByte := data.getD 1 0
    let masked := secondByte &&& maskBit != 0
    match parsePayloadLength data secondByte with
    | .error result => (result, data)
    | .ok (payloadLength64, p) =>
      let maskingKeyLength := if masked then maskingKeyWidthInBytes else 0
      if payloadLength64 > maxPayloadLength ∨ (payloadLength64 + maskingKeyLength) % 2 ^ 64 > 2 ^ 64 - 1 then
        (.frameError
          ("WebSocket frame length too large: " ++ toString payloadLength64 ++ " bytes"), data)
      else if data.length - p < maskingKeyLength + payloadLength64 then (.frameIncomplete, data)
      else
        let data :=
          if masked then applyMask data p (p + maskingKeyWidthInBytes) payloadLength64 else data
        (.frameOK
          { opCode := firstByte &&& opCodeMask
            final := firstByte &&& finalBit != 0
            compress := firstByte &&& compressBit != 0
            reserved2 := firstByte &&& reserved2Bit != 0
            reserved3 := firstByte &&& reserved3Bit != 0
            masked := masked
            payload := (data.drop (p + maskingKeyLength)).take payloadLength64 }
          (p + maskingKeyLength + payloadLength64), data)

def firstByte (final compress : Bool) (opCode : UInt8) : UInt8 :=
  (if final then finalBit else 0) ||| (if compress then compressBit else 0) ||| opCode

def secondByte (masked : Bool) (short : UInt8) : UInt8 := (if masked then maskBit else 0) ||| short

namespace Frame

def appendFramePayload (frame : Frame) (maskingKey : Vector UInt8 4) (frameData : List UInt8) :
    List UInt8 :=
  if frame.masked then
    let maskingKeyStart := frameData.length
    let frameData := frameData ++ maskingKey.toList
    let payloadStart := frameData.length
    applyMask (frameData ++ frame.payload) maskingKeyStart payloadStart frame.payload.length
  else frameData ++ frame.payload

def payloadLengthFields (payloadLength : ℕ) : UInt8 × List UInt8 :=
  if payloadLength ≤ maxPayloadLengthWithoutExtendedLengthField then (UInt8.ofNat payloadLength, [])
  else if payloadLength ≤ 0xFFFF then
    (UInt8.ofNat payloadLengthWithTwoByteExtendedLengthField,
      [UInt8.ofNat ((payloadLength &&& 0xFF00) >>> 8), UInt8.ofNat (payloadLength &&& 0xFF)])
  else
    (UInt8.ofNat payloadLengthWithEightByteExtendedLengthField,
      (encode 8 payloadLength).reverse)

def header (frame : Frame) : List UInt8 :=
  let (short, extended) := payloadLengthFields frame.payload.length
  [firstByte frame.final frame.compress frame.opCode, secondByte frame.masked short] ++ extended

def makeFrameData (frame : Frame) (maskingKey : Vector UInt8 4) : List UInt8 :=
  frame.appendFramePayload maskingKey frame.header

end Frame

section Lengths

open WebSocket.Frame

theorem readExtendedLength_eq {field : List UInt8} (hlen : field.length ≤ 8) :
    readExtendedLength field = decode field.reverse := by
  induction field using List.reverseRecOn with
  | nil => rfl
  | append_singleton field byte ih =>
    rw [length_append, List.length_singleton] at hlen
    have hlt : decode field.reverse < 256 ^ 7 := by
      calc decode field.reverse < 256 ^ field.reverse.length := decode_lt _
        _ ≤ 256 ^ 7 := Nat.pow_le_pow_right (by omega) (by rw [List.length_reverse]; omega)
    have hbyte := byte.toNat_lt
    rw [readExtendedLength, List.foldl_append, List.foldl_cons, List.foldl_nil]
    change (readExtendedLength field <<< 8) % 2 ^ 64 ||| byte.toNat = _
    rw [ih (by omega), Nat.mod_eq_of_lt (by rw [Nat.shiftLeft_eq]; omega),
      ← Nat.shiftLeft_add_eq_or_of_lt (by omega), Nat.shiftLeft_eq, List.reverse_append,
      List.reverse_singleton, List.singleton_append, decode]
    omega

/-- The extension of a length is its bytes, highest first. -/
theorem payloadLengthFields_eq (n : ℕ) : payloadLengthFields n =
      if n ≤ 125 then (UInt8.ofNat n, [])
      else if n ≤ 0xFFFF then (126, (encode 2 n).reverse)
      else (127, (encode 8 n).reverse) := by
  have hhigh : (n &&& 0xFF00) >>> 8 = n / 256 % 256 := by
    rw [Nat.shiftRight_and_distrib, Nat.shiftRight_eq_div_pow]
    exact Nat.and_two_pow_sub_one_eq_mod (n / 256) 8
  have hlow : n &&& 0xFF = n % 256 := Nat.and_two_pow_sub_one_eq_mod n 8
  have hmod (m : ℕ) : UInt8.ofNat (m % 256) = UInt8.ofNat m := by
    apply UInt8.toNat_inj.mp
    rw [UInt8.toNat_ofNat', UInt8.toNat_ofNat', Nat.mod_mod]
  rw [payloadLengthFields, hhigh, hlow, hmod, hmod]
  rfl

def extendedSize (n : ℕ) : ℕ := if n ≤ 125 then 0 else if n ≤ 0xFFFF then 2 else 8

theorem length_payloadLengthFields (n : ℕ) : (payloadLengthFields n).2.length = extendedSize n := by
  rw [payloadLengthFields_eq, extendedSize]
  split_ifs
  · rfl
  · rw [List.length_reverse, length_encode]
  · rw [List.length_reverse, length_encode]

theorem toNat_payloadLengthFields (n : ℕ) :
    (payloadLengthFields n).1.toNat = if n ≤ 125 then n else if n ≤ 0xFFFF then 126 else 127 := by
  rw [payloadLengthFields_eq]
  split_ifs with hshort
  · rw [UInt8.toNat_ofNat']
    omega
  · rfl
  · rfl

variable {n : ℕ} {data : List UInt8} {secondByte : UInt8}

/-- The length is read back from the fields. -/
theorem readExtendedLength_fields (hlong : ¬n ≤ 125) (hlt : n < 2 ^ 64) :
    readExtendedLength (payloadLengthFields n).2 = n := by
  have hlen := length_payloadLengthFields n
  rw [extendedSize, if_neg hlong] at hlen
  rw [readExtendedLength_eq (by rw [hlen]; split_ifs <;> omega), payloadLengthFields_eq,
    if_neg hlong]
  by_cases htwo : n ≤ 0xFFFF
  · rw [if_pos htwo, List.reverse_reverse]
    exact decode_encode (by omega)
  · rw [if_neg htwo, List.reverse_reverse]
    exact decode_encode (by omega)

/-- How a length is parsed, from the value of the short form. -/
theorem parsePayloadLength_eq (data : List UInt8) (secondByte : UInt8) :
    parsePayloadLength data secondByte =
      let short := (secondByte &&& payloadLengthMask).toNat
      if short ≤ 125 then .ok (short, 2)
      else
        let size := if short = 126 then 2 else 8
        let n := readExtendedLength ((data.drop 2).take size)
        if data.length - 2 < size then .error .frameIncomplete
        else if n ≤ (if short = 126 then 125 else 0xFFFF) then
          .error (.frameError "The minimal number of bytes MUST be used to encode the length")
        else .ok (n, 2 + size) := by
  unfold parsePayloadLength maxPayloadLengthWithoutExtendedLengthField
    payloadLengthWithTwoByteExtendedLengthField
  extract_lets short size n
  by_cases hshort : short ≤ 125
  · rw [if_pos hshort, if_neg (Nat.not_lt.mpr hshort)]
  · rw [if_neg hshort, if_pos (Nat.lt_of_not_le hshort)]
    congr 1
    by_cases htwo : short = 126
    · have hsize : size = 2 := if_pos htwo
      simp [hsize, htwo]
    · have hsize : size = 8 := if_neg htwo
      simp [hsize, htwo]

/-- A length is parsed from its fields at the start of a buffer, whatever follows. -/
theorem parsePayloadLength_of_fields {rest : List UInt8} (hlt : n < 2 ^ 64)
    (hshort : secondByte &&& payloadLengthMask = (payloadLengthFields n).1)
    (hdrop : data.drop 2 = (payloadLengthFields n).2 ++ rest) :
    parsePayloadLength data secondByte = .ok (n, 2 + extendedSize n) := by
  have hlen : data.length - 2 = extendedSize n + rest.length := by
    rw [← length_drop, hdrop, length_append, length_payloadLengthFields]
  have htake : (data.drop 2).take (extendedSize n) = (payloadLengthFields n).2 := by
    rw [hdrop, ← length_payloadLengthFields, List.take_left]
  rw [parsePayloadLength_eq, hshort, toNat_payloadLengthFields]
  by_cases hnone : n ≤ 125
  · simp [hnone, extendedSize]
  · have hread := readExtendedLength_fields hnone hlt
    rw [← htake] at hread
    by_cases htwo : n ≤ 0xFFFF
    · have hsize : extendedSize n = 2 := by rw [extendedSize, if_neg hnone, if_pos htwo]
      have henough : ¬ data.length - 2 < 2 := by omega
      rw [hsize] at hread
      simp [hnone, htwo, hsize, hread, henough]
    · have hsize : extendedSize n = 8 := by rw [extendedSize, if_neg hnone, if_neg htwo]
      have henough : ¬ data.length - 2 < 8 := by omega
      rw [hsize] at hread
      simp [hnone, htwo, hsize, hread, henough]

theorem parsePayloadLength_of_short
    (hshort : secondByte &&& payloadLengthMask = (payloadLengthFields n).1)
    (hinc : data.length - 2 < extendedSize n) :
    parsePayloadLength data secondByte = .error .frameIncomplete := by
  rw [extendedSize] at hinc
  rw [parsePayloadLength_eq, hshort, toNat_payloadLengthFields]
  by_cases hnone : n ≤ 125
  · rw [if_pos hnone] at hinc
    omega
  · rw [if_neg hnone] at hinc
    by_cases htwo : n ≤ 0xFFFF
    · rw [if_pos htwo] at hinc
      simp [hnone, htwo, hinc]
    · rw [if_neg htwo] at hinc
      simp [hnone, htwo, hinc]

/-- The bytes of an extension are those of the length that is read from them. -/
theorem encode_readExtendedLength {field : List UInt8} {size : ℕ} (hlen : field.length = size)
    (hsize : size ≤ 8) : (encode size (readExtendedLength field)).reverse = field := by
  subst hlen
  have hencode := encode_decode field.reverse
  rw [List.length_reverse] at hencode
  rw [readExtendedLength_eq hsize, hencode, List.reverse_reverse]

/-- A buffer from which a length is parsed starts with the fields of the length. -/
theorem fields_of_parsePayloadLength {p : ℕ}
    (hparse : parsePayloadLength data secondByte = .ok (n, p)) :
    secondByte &&& payloadLengthMask = (payloadLengthFields n).1 ∧
      (data.drop 2).take (extendedSize n) = (payloadLengthFields n).2 ∧ p = 2 + extendedSize n := by
  have hshort : (secondByte &&& payloadLengthMask).toNat < 128 := by
    rw [UInt8.toNat_and]
    exact Nat.lt_of_le_of_lt Nat.and_le_right (by decide)
  rw [parsePayloadLength_eq] at hparse
  extract_lets short size field at hparse
  have hofNat : UInt8.ofNat short = secondByte &&& payloadLengthMask := UInt8.ofNat_toNat
  by_cases hnone : short ≤ 125
  · rw [if_pos hnone] at hparse
    obtain ⟨rfl, rfl⟩ := Prod.mk.inj (Except.ok.inj hparse)
    rw [payloadLengthFields_eq, if_pos hnone, extendedSize, if_pos hnone, hofNat]
    exact ⟨rfl, List.take_zero, rfl⟩
  · rw [if_neg hnone] at hparse
    split_ifs at hparse with hlong htwo hmin hmin
    · have hsize : size = 2 := if_pos htwo
      obtain ⟨hfield, rfl⟩ := Prod.mk.inj (Except.ok.inj hparse)
      rw [hfield] at hmin
      simp only [field, hsize] at hfield
      have hlen : ((data.drop 2).take 2).length = 2 := by
        rw [length_take, length_drop]
        omega
      have hlt := decode_lt ((data.drop 2).take 2).reverse
      rw [← readExtendedLength_eq (by omega), List.length_reverse, hlen, hfield] at hlt
      have hencode := encode_readExtendedLength hlen (by omega)
      rw [payloadLengthFields_eq, if_neg hmin, if_pos (by omega), extendedSize, if_neg hmin,
        if_pos (by omega), ← hofNat, htwo, hsize, ← hfield, hencode]
      exact ⟨rfl, rfl, rfl⟩
    · have hsize : size = 8 := if_neg htwo
      obtain ⟨hfield, rfl⟩ := Prod.mk.inj (Except.ok.inj hparse)
      rw [hfield] at hmin
      simp only [field, hsize] at hfield
      have hlen : ((data.drop 2).take 8).length = 8 := by
        rw [length_take, length_drop]
        omega
      have hencode := encode_readExtendedLength hlen (by omega)
      rw [payloadLengthFields_eq, if_neg (by omega), if_neg hmin, extendedSize, if_neg (by omega),
        if_neg hmin, ← hofNat, show short = 127 by omega, hsize, ← hfield, hencode]
      exact ⟨rfl, rfl, rfl⟩

end Lengths

section Masking

variable (key payload : List UInt8)

def mask : List UInt8 :=
  payload.mapIdx fun i byte => byte ^^^ key.getD (i % maskingKeyWidthInBytes) 0

theorem length_mask : (mask key payload).length = payload.length :=
  List.length_mapIdx

/-- Masking twice gives the payload back. -/
theorem mask_mask : mask key (mask key payload) = payload := by
  apply List.ext_getElem
  · rw [length_mask, length_mask]
  · intro i _ _
    simp only [mask, List.getElem_mapIdx]
    rw [UInt8.xor_assoc, UInt8.xor_self, UInt8.xor_zero]

/-- After the loop the bytes of the payload are masked with the key, and no other byte has changed. -/
theorem getElem?_applyMask {data : List UInt8} {maskingKeyStart payloadStart payloadLength : ℕ}
    (hstart : maskingKeyStart + maskingKeyWidthInBytes ≤ payloadStart) (j : ℕ) :
    (applyMask data maskingKeyStart payloadStart payloadLength)[j]? =
      if payloadStart ≤ j ∧ j < payloadStart + payloadLength then
        data[j]?.map (· ^^^ data.getD
          (maskingKeyStart + (j - payloadStart) % maskingKeyWidthInBytes) 0)
      else data[j]? := by
  induction payloadLength generalizing j with
  | zero => rw [if_neg (by omega)]; rfl
  | succ n ih =>
    have hmod : n % maskingKeyWidthInBytes < maskingKeyWidthInBytes := Nat.mod_lt _ (by decide)
    have hkey : (applyMask data maskingKeyStart payloadStart n).getD
        (maskingKeyStart + n % maskingKeyWidthInBytes) 0 =
          data.getD (maskingKeyStart + n % maskingKeyWidthInBytes) 0 := by
      rw [List.getD_eq_getElem?_getD, ih, if_neg (by omega), List.getD_eq_getElem?_getD]
    have hstep : applyMask data maskingKeyStart payloadStart (n + 1) =
        (applyMask data maskingKeyStart payloadStart n).modify (payloadStart + n)
          (· ^^^ data.getD (maskingKeyStart + n % maskingKeyWidthInBytes) 0) := by
      rw [← hkey, applyMask, List.range_succ, List.foldl_append]
      rfl
    rw [hstep, List.getElem?_modify, ih]
    by_cases hj : payloadStart + n = j
    · subst hj
      rw [if_neg (by omega), if_pos (by omega), Nat.add_sub_cancel_left]
      simp only [if_true]
      rfl
    · have hrng : payloadStart ≤ j ∧ j < payloadStart + (n + 1) ↔
          payloadStart ≤ j ∧ j < payloadStart + n := by omega
      simp only [if_neg hj, hrng]
      exact id_map _

/-- Where the key stands right before the payload, the payload is replaced by the masked one. -/
theorem applyMask_append {key : List UInt8} (hkey : key.length = maskingKeyWidthInBytes)
    (before payload after : List UInt8) :
    applyMask (before ++ key ++ payload ++ after) before.length
      (before.length + maskingKeyWidthInBytes) payload.length =
        before ++ key ++ mask key payload ++ after := by
  have hstart : (before ++ key).length = before.length + maskingKeyWidthInBytes := by
    rw [length_append, hkey]
  have hread : ∀ i, (before ++ key ++ payload ++ after).getD
      (before.length + i % maskingKeyWidthInBytes) 0 = key.getD (i % maskingKeyWidthInBytes) 0 := by
    intro i
    have hmod : i % maskingKeyWidthInBytes < maskingKeyWidthInBytes := Nat.mod_lt _ (by decide)
    rw [append_assoc, append_assoc, List.getD_append_right _ _ _ _ (Nat.le_add_right _ _),
      Nat.add_sub_cancel_left, List.getD_append _ _ _ _ (by omega)]
  apply List.ext_getElem?
  intro j
  rw [getElem?_applyMask le_rfl, hread]
  by_cases hbefore : j < (before ++ key).length
  · rw [if_neg (by omega), append_assoc _ payload, append_assoc _ (mask key payload),
      List.getElem?_append_left hbefore, List.getElem?_append_left hbefore]
  · rw [append_assoc _ payload, append_assoc _ (mask key payload),
      List.getElem?_append_right (not_lt.mp hbefore),
      List.getElem?_append_right (not_lt.mp hbefore), hstart]
    by_cases hin : j - (before.length + maskingKeyWidthInBytes) < payload.length
    · rw [if_pos (by omega), List.getElem?_append_left hin,
        List.getElem?_append_left (by rw [length_mask]; exact hin), mask, List.getElem?_mapIdx]
    · rw [if_neg (by omega), List.getElem?_append_right (by omega),
        List.getElem?_append_right (by rw [length_mask]; omega), length_mask]

end Masking

section Bytes

instance decidableForallByte {P : UInt8 → Prop} [DecidablePred P] : Decidable (∀ byte, P byte) :=
  decidable_of_iff (∀ n < 256, P (UInt8.ofNat n))
    ⟨fun h byte => UInt8.ofNat_toNat (x := byte) ▸ h byte.toNat byte.toNat_lt, fun h _ _ => h _⟩

theorem firstByte_fields (final compress : Bool) (opCode : UInt8) (h : opCode &&& ~~~opCodeMask = 0) :
    firstByte final compress opCode &&& opCodeMask = opCode ∧
      (firstByte final compress opCode &&& finalBit != 0) = final ∧
      (firstByte final compress opCode &&& compressBit != 0) = compress ∧
      (firstByte final compress opCode &&& reserved2Bit != 0) = false ∧
      (firstByte final compress opCode &&& reserved3Bit != 0) = false := by
  revert final compress opCode
  decide +kernel

theorem firstByte_of_fields (byte : UInt8) (h2 : (byte &&& reserved2Bit != 0) = false)
    (h3 : (byte &&& reserved3Bit != 0) = false) :
    firstByte (byte &&& finalBit != 0) (byte &&& compressBit != 0) (byte &&& opCodeMask) = byte := by
  revert byte
  decide +kernel

theorem secondByte_fields (masked : Bool) (short : UInt8) (h : short.toNat < 128) :
    (secondByte masked short &&& maskBit != 0) = masked ∧
      secondByte masked short &&& payloadLengthMask = short := by
  revert masked short
  decide +kernel

theorem secondByte_of_fields (byte : UInt8) :
    secondByte (byte &&& maskBit != 0) (byte &&& payloadLengthMask) = byte := by
  revert byte
  decide +kernel

end Bytes

section Frames

open WebSocket.Frame

variable (frame : Frame) (maskingKey : Vector UInt8 4)

def sentPayload : List UInt8 :=
  if frame.masked then maskingKey.toList ++ mask maskingKey.toList frame.payload else frame.payload

theorem header_eq : frame.header = firstByte frame.final frame.compress frame.opCode ::
    secondByte frame.masked (payloadLengthFields frame.payload.length).1 ::
      (payloadLengthFields frame.payload.length).2 := rfl

theorem length_header : frame.header.length = 2 + extendedSize frame.payload.length := by
  rw [header_eq, List.length_cons, List.length_cons, length_payloadLengthFields]
  omega

theorem length_maskingKey : maskingKey.toList.length = maskingKeyWidthInBytes := Vector.length_toList

theorem makeFrameData_eq : frame.makeFrameData maskingKey = frame.header ++ sentPayload frame maskingKey := by
  rw [makeFrameData, appendFramePayload, sentPayload]
  by_cases hmsk : frame.masked
  · have hmask := applyMask_append (length_maskingKey maskingKey) frame.header frame.payload []
    rw [List.append_nil, List.append_nil] at hmask
    rw [if_pos hmsk, if_pos hmsk]
    dsimp only
    rw [length_append, length_maskingKey, hmask, append_assoc]
  · rw [if_neg hmsk, if_neg hmsk]

theorem length_sentPayload : (sentPayload frame maskingKey).length =
    (if frame.masked then maskingKeyWidthInBytes else 0) + frame.payload.length := by
  rw [sentPayload]
  split_ifs
  · rw [length_append, length_maskingKey, length_mask]
  · rw [zero_add]

theorem toNat_payloadLengthFields_lt (n : ℕ) : (payloadLengthFields n).1.toNat < 128 := by
  rw [toNat_payloadLengthFields]
  split_ifs <;> omega

variable {data : List UInt8} {n : ℕ} {parsed : Frame}

/-- What is parsed when the length is known. -/
theorem parseFrame_of_length {p : ℕ} (htwo : ¬data.length < 2)
    (hlen : parsePayloadLength data (data.getD 1 0) = .ok (n, p)) (hn : n ≤ maxPayloadLength) :
    parseFrame data = let masked := data.getD 1 0 &&& maskBit != 0
      let maskingKeyLength := if masked then maskingKeyWidthInBytes else 0
      let unmasked := if masked then applyMask data p (p + maskingKeyWidthInBytes) n else data
      if data.length - p < maskingKeyLength + n then (.frameIncomplete, data)
      else (.frameOK ⟨data.getD 0 0 &&& opCodeMask, data.getD 0 0 &&& finalBit != 0,
        data.getD 0 0 &&& compressBit != 0, data.getD 0 0 &&& reserved2Bit != 0,
        data.getD 0 0 &&& reserved3Bit != 0, masked, (unmasked.drop (p + maskingKeyLength)).take n⟩
        (p + maskingKeyLength + n), unmasked) := by
  simp only [parseFrame, if_neg htwo, hlen]
  rw [if_neg]
  rintro (hlarge | hlarge) <;> omega

theorem parsePayloadLength_error {byte : UInt8} {result : ParseFrameResult}
    (herr : parsePayloadLength data byte = .error result) :
    result = .frameIncomplete ∨ ∃ errorString, result = .frameError errorString := by
  rw [parsePayloadLength_eq] at herr
  extract_lets short size n at herr
  split_ifs at herr
  · exact .inl (Except.error.inj herr).symm
  · exact .inr ⟨_, (Except.error.inj herr).symm⟩
  · exact .inr ⟨_, (Except.error.inj herr).symm⟩

/-- A frame is parsed only with a length that is parsed and is not too large. -/
theorem length_of_parseFrame {frameEnd : ℕ}
    (hparse : (parseFrame data).1 = .frameOK parsed frameEnd) :
    ¬data.length < 2 ∧ ∃ n p, parsePayloadLength data (data.getD 1 0) = .ok (n, p) ∧
      n ≤ maxPayloadLength := by
  by_cases htwo : data.length < 2
  · rw [parseFrame, if_pos htwo] at hparse
    cases hparse
  · refine ⟨htwo, ?_⟩
    cases hlen : parsePayloadLength data (data.getD 1 0) with
    | error result =>
      simp only [parseFrame, if_neg htwo, hlen] at hparse
      rcases parsePayloadLength_error hlen with rfl | ⟨errorString, rfl⟩ <;> cases hparse
    | ok found =>
      refine ⟨found.1, found.2, rfl, ?_⟩
      by_contra hlarge
      simp only [parseFrame, if_neg htwo, hlen] at hparse
      rw [if_pos (.inl (by omega))] at hparse
      cases hparse

/-- What stands in the buffer behind the header once it is unmasked. -/
theorem unmasked_payload (trailing : List UInt8) :
    let data := frame.header ++ (sentPayload frame maskingKey ++ trailing)
    let p := frame.header.length
    let maskingKeyLength := if frame.masked then maskingKeyWidthInBytes else 0
    let unmasked := if frame.masked then
      applyMask data p (p + maskingKeyWidthInBytes) frame.payload.length else data
    (unmasked.drop (p + maskingKeyLength)).take frame.payload.length = frame.payload := by
  intro data p maskingKeyLength unmasked
  by_cases hmsk : frame.masked
  · have hbuffer : unmasked = frame.header ++ maskingKey.toList ++ (frame.payload ++ trailing) := by
      have hmask := applyMask_append (length_maskingKey maskingKey) frame.header
        (mask maskingKey.toList frame.payload) trailing
      rw [length_mask, mask_mask] at hmask
      simp only [unmasked, data, p, sentPayload, if_pos hmsk, ← append_assoc]
      exact hmask
    have hstart : p + maskingKeyLength = (frame.header ++ maskingKey.toList).length := by
      simp only [p, maskingKeyLength, if_pos hmsk, length_append, length_maskingKey]
    rw [hbuffer, hstart, List.drop_left, List.take_left]
  · simp only [unmasked, data, p, maskingKeyLength, sentPayload, if_neg hmsk, add_zero,
      List.drop_left, List.take_left]

/-- The frame is parsed back from its data, whatever follows. -/
theorem parseFrame_makeFrameData (hopCode : frame.opCode &&& ~~~opCodeMask = 0)
    (hpay : frame.payload.length < 2 ^ 63) (trailing : List UInt8) :
    (parseFrame (frame.makeFrameData maskingKey ++ trailing)).1 =
      .frameOK { frame with reserved2 := false, reserved3 := false }
        (frame.makeFrameData maskingKey).length := by
  obtain ⟨hopCodeField, hfinal, hcompr, hr2, hr3⟩ :=
    firstByte_fields frame.final frame.compress frame.opCode hopCode
  obtain ⟨hmsk, hshort⟩ := secondByte_fields frame.masked
    (payloadLengthFields frame.payload.length).1 (toNat_payloadLengthFields_lt _)
  generalize hdata : frame.makeFrameData maskingKey ++ trailing = data
  have hsplit : data = frame.header ++ (sentPayload frame maskingKey ++ trailing) := by
    rw [← hdata, makeFrameData_eq, append_assoc]
  have hfst : data.getD 0 0 = firstByte frame.final frame.compress frame.opCode := by
    rw [hsplit, header_eq]
    rfl
  have hsnd : data.getD 1 0 =
      secondByte frame.masked (payloadLengthFields frame.payload.length).1 := by
    rw [hsplit, header_eq]
    rfl
  have hdrop : data.drop 2 = (payloadLengthFields frame.payload.length).2 ++
      (sentPayload frame maskingKey ++ trailing) := by
    rw [hsplit, header_eq]
    rfl
  have hlen : data.length =
      2 + extendedSize frame.payload.length + (sentPayload frame maskingKey).length + trailing.length := by
    rw [hsplit, length_append, length_append, length_header]
    omega
  rw [length_sentPayload] at hlen
  have hpars := parsePayloadLength_of_fields (by omega) (hsnd ▸ hshort) hdrop
  rw [parseFrame_of_length (by omega) hpars (by unfold maxPayloadLength; omega), hfst, hsnd,
    hmsk, hopCodeField, hfinal, hcompr, hr2, hr3]
  have hunmasked := unmasked_payload frame maskingKey trailing
  rw [length_header, ← hsplit] at hunmasked
  rw [if_neg (by omega), hunmasked, makeFrameData_eq, length_append, length_header,
    length_sentPayload, add_assoc]

/-- A proper part of the data is not parsed, and is left as it is. -/
theorem parseFrame_take (hpay : frame.payload.length < 2 ^ 63)
    (hn : n < (frame.makeFrameData maskingKey).length) :
    parseFrame ((frame.makeFrameData maskingKey).take n) =
      (.frameIncomplete, (frame.makeFrameData maskingKey).take n) := by
  obtain ⟨hmsk, hshort⟩ := secondByte_fields frame.masked
    (payloadLengthFields frame.payload.length).1 (toNat_payloadLengthFields_lt _)
  generalize hdata : (frame.makeFrameData maskingKey).take n = data
  have hlen : data.length = n := by
    rw [← hdata, length_take]
    omega
  rw [makeFrameData_eq, length_append, length_header, length_sentPayload] at hn
  by_cases htwo : data.length < 2
  · rw [parseFrame, if_pos htwo]
  · obtain ⟨m, rfl⟩ : ∃ m, n = m + 2 := ⟨n - 2, by omega⟩
    have hsnd : data.getD 1 0 =
        secondByte frame.masked (payloadLengthFields frame.payload.length).1 := by
      rw [← hdata, makeFrameData_eq, header_eq]
      rfl
    have hdrop : data.drop 2 = ((payloadLengthFields frame.payload.length).2 ++
        sentPayload frame maskingKey).take m := by
      rw [← hdata, makeFrameData_eq, header_eq]
      rfl
    by_cases hext : data.length - 2 < extendedSize frame.payload.length
    · have herr := parsePayloadLength_of_short (hsnd ▸ hshort) hext
      simp only [parseFrame, if_neg htwo, herr]
    · rw [List.take_append, List.take_of_length_le
        (by rw [length_payloadLengthFields]; omega)] at hdrop
      have hpars := parsePayloadLength_of_fields (by omega) (hsnd ▸ hshort) hdrop
      rw [parseFrame_of_length htwo hpars (by unfold maxPayloadLength; omega), hsnd, hmsk]
      rw [if_pos (by omega)]

omit frame maskingKey in
/-- The first bytes of a buffer from which a length is parsed are the header of a frame with the
fields of the first bytes and this length. -/
theorem header_of_parsePayloadLength {p : ℕ} (htwo : ¬data.length < 2)
    (hlen : parsePayloadLength data (data.getD 1 0) = .ok (n, p))
    (hopCode : parsed.opCode = data.getD 0 0 &&& opCodeMask)
    (hfinal : parsed.final = (data.getD 0 0 &&& finalBit != 0))
    (hcompr : parsed.compress = (data.getD 0 0 &&& compressBit != 0))
    (hr2 : (data.getD 0 0 &&& reserved2Bit != 0) = false)
    (hr3 : (data.getD 0 0 &&& reserved3Bit != 0) = false)
    (hmsk : parsed.masked = (data.getD 1 0 &&& maskBit != 0))
    (hpay : parsed.payload.length = n) : parsed.header = data.take p := by
  obtain ⟨hshort, hext, hp⟩ := fields_of_parsePayloadLength hlen
  obtain ⟨first, second, rest, rfl⟩ : ∃ first second rest, data = first :: second :: rest := by
    match data, htwo with
    | first :: second :: rest, _ => exact ⟨first, second, rest, rfl⟩
    | [_], htwo => exact absurd Nat.one_lt_two htwo
    | [], htwo => exact absurd Nat.two_pos htwo
  rw [header_eq, hpay, ← hshort, ← hext, hopCode, hfinal, hcompr, hmsk,
    firstByte_of_fields _ hr2 hr3, secondByte_of_fields, hp, add_comm]
  rfl

/-- What is parsed as a frame is what the frame is sent as, with some key. -/
theorem makeFrameData_of_parseFrame {frameEnd : ℕ}
    (hparse : (parseFrame data).1 = .frameOK parsed frameEnd)
    (hr2 : parsed.reserved2 = false) (hr3 : parsed.reserved3 = false) :
    ∃ maskingKey, data.take frameEnd = parsed.makeFrameData maskingKey := by
  obtain ⟨htwo, n, p, hlen, hn⟩ := length_of_parseFrame hparse
  rw [parseFrame_of_length htwo hlen hn] at hparse
  extract_lets masked maskingKeyLength unmasked at hparse
  by_cases hinc : data.length - p < maskingKeyLength + n
  · rw [if_pos hinc] at hparse
    cases hparse
  rw [if_neg hinc] at hparse
  obtain ⟨hpars, rfl⟩ := ParseFrameResult.frameOK.inj hparse
  have hheader (hpayload : parsed.payload.length = n) : parsed.header = data.take p := by
    subst hpars
    exact header_of_parsePayloadLength htwo hlen rfl rfl rfl hr2 hr3 rfl hpayload
  have hpm : parsed.masked = masked := by rw [← hpars]
  have hpay : parsed.payload = (unmasked.drop (p + maskingKeyLength)).take n := by
    rw [← hpars]
  have htake : (data.take p).length = p := by
    obtain ⟨-, hext, rfl⟩ := fields_of_parsePayloadLength hlen
    have hsize := length_payloadLengthFields n
    rw [← hext, length_take, length_drop] at hsize
    rw [length_take]
    omega
  by_cases hmsk : masked
  · have hwidth : maskingKeyLength = maskingKeyWidthInBytes := if_pos hmsk
    rw [hwidth] at hinc hpay ⊢
    generalize hkey : (data.drop p).take maskingKeyWidthInBytes = key
    generalize hbody : (data.drop (p + maskingKeyWidthInBytes)).take n = body
    have hsplit : data = data.take p ++ key ++ body ++ data.drop (p + maskingKeyWidthInBytes + n) := by
      rw [← hkey, ← hbody, ← take_add, ← take_add, List.take_append_drop]
    have hkeyLen : key.length = maskingKeyWidthInBytes := by
      rw [← hkey, length_take, length_drop]
      omega
    have hbodyLen : body.length = n := by
      rw [← hbody, length_take, length_drop]
      omega
    have hmask := applyMask_append hkeyLen (data.take p) body
      (data.drop (p + maskingKeyWidthInBytes + n))
    rw [← hsplit, htake, hbodyLen] at hmask
    have hpayload : parsed.payload = mask key body := by
      have hstart : p + maskingKeyWidthInBytes = (data.take p ++ key).length := by
        rw [length_append, htake, hkeyLen]
      have hend : (mask key body).length = n := by
        rw [length_mask, hbodyLen]
      simp only [unmasked, if_pos hmsk] at hpay
      rw [hpay, hmask, hstart, append_assoc, List.drop_left, ← hend, List.take_left]
    refine ⟨⟨key.toArray, hkeyLen⟩, ?_⟩
    rw [makeFrameData_eq, hheader (by rw [hpayload, length_mask, hbodyLen]), sentPayload,
      if_pos (hpm.trans hmsk), hpayload]
    change _ = data.take p ++ (key ++ mask key (mask key body))
    rw [mask_mask, take_add, take_add, hkey, hbody, append_assoc]
  · have hwidth : maskingKeyLength = 0 := if_neg hmsk
    have hunmasked : unmasked = data := if_neg hmsk
    rw [hwidth, zero_add] at hinc
    rw [hwidth, add_zero, hunmasked] at hpay
    rw [hwidth, add_zero]
    refine ⟨Vector.replicate 4 0, ?_⟩
    have hlen : parsed.payload.length = n := by
      rw [hpay, length_take, length_drop]
      omega
    rw [makeFrameData_eq, hheader hlen, sentPayload, if_neg (hpm ▸ hmsk), hpay, take_add]

end Frames

/-- A frame is parsed back from its data, whatever follows, and not from a part of it; and what is
parsed starts with what the frame is sent as. -/
theorem parseFrame_correct :
    (∀ (frame : Frame) (maskingKey : Vector UInt8 4) (trailing : List UInt8),
      frame.opCode &&& ~~~opCodeMask = 0 → frame.payload.length < 2 ^ 63 →
        (parseFrame (frame.makeFrameData maskingKey ++ trailing)).1 =
            .frameOK { frame with reserved2 := false, reserved3 := false }
              (frame.makeFrameData maskingKey).length ∧
          ∀ n < (frame.makeFrameData maskingKey).length,
            parseFrame ((frame.makeFrameData maskingKey).take n) =
              (.frameIncomplete, (frame.makeFrameData maskingKey).take n)) ∧
    ∀ (data : List UInt8) (frame : Frame) (frameEnd : ℕ),
      (parseFrame data).1 = .frameOK frame frameEnd → frame.reserved2 = false →
        frame.reserved3 = false →
        frame.header <+: data ∧ ∃ maskingKey, data.take frameEnd = frame.makeFrameData maskingKey := by
  refine ⟨fun frame maskingKey trailing hopCode hpayload => ⟨?_, fun n hn => ?_⟩, ?_⟩
  · exact parseFrame_makeFrameData frame maskingKey hopCode hpayload trailing
  · exact parseFrame_take frame maskingKey hpayload hn
  · intro data frame frameEnd hparse hreserved2 hreserved3
    obtain ⟨maskingKey, hdata⟩ := makeFrameData_of_parseFrame hparse hreserved2 hreserved3
    refine ⟨?_, maskingKey, hdata⟩
    rw [makeFrameData_eq] at hdata
    exact (List.prefix_append _ _).trans (hdata ▸ List.take_prefix _ _)

/-- A masked text frame of two bytes, with one byte of the next frame behind it. -/
theorem parseFrame_correct_maskedText :
    (parseFrame (Frame.makeFrameData ⟨1, true, false, false, false, true, [72, 105]⟩ #v[1, 2, 3, 4] ++
      [7])).1 = .frameOK ⟨1, true, false, false, false, true, [72, 105]⟩
        (Frame.makeFrameData ⟨1, true, false, false, false, true, [72, 105]⟩ #v[1, 2, 3, 4]).length :=
  (parseFrame_correct.1 ⟨1, true, false, false, false, true, [72, 105]⟩ #v[1, 2, 3, 4] [7] (by decide)
    (by decide)).1

end WebKit.WebSocket
