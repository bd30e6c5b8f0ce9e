import Mathlib

/-!
The packed stream of unlinked instructions. An instruction is its opcode and as many operands as the
opcode has; an operand is stored in one, two or five bytes, and the first three bits tell how.
The scratch buffer is five bytes for every word of the instructions, counted in 32 bits.
-/

namespace WebKit.Bytecode

open List

inductive PackedValueType where
  | positive5Bit
  | negative5Bit
  | positive13Bit
  | negative13Bit
  | constantRegister5Bit
  | constantRegister13Bit
  | full32Bit

open PackedValueType

def packed (type : PackedValueType) (bits : ℕ) : UInt8 := UInt8.ofNat (type.ctorIdx <<< 5 ||| bits)

def append32 (value : ℕ) : List UInt8 :=
  if value &&& 0xffffffe0 = 0 then [UInt8.ofNat value]
  else if value &&& 0xffffffe0 = 0xffffffe0 then [packed negative5Bit (value &&& 0x1f)]
  else if value &&& 0xffffffe0 = 0x40000000 then [packed constantRegister5Bit (value &&& 0x1f)]
  else if value &&& 0xffffe000 = 0 then
    [packed positive13Bit (value >>> 8 &&& 0x1f), UInt8.ofNat (value &&& 0xff)]
  else if value &&& 0xffffe000 = 0xffffe000 then
    [packed negative13Bit (value >>> 8 &&& 0x1f), UInt8.ofNat (value &&& 0xff)]
  else if value &&& 0xffffe000 = 0x40000000 then
    [packed constantRegister13Bit (value >>> 8 &&& 0x1f), UInt8.ofNat (value &&& 0xff)]
  else
    [packed full32Bit 0, UInt8.ofNat (value &&& 0xff), UInt8.ofNat (value >>> 8 &&& 0xff),
      UInt8.ofNat (value >>> 16 &&& 0xff), UInt8.ofNat (value >>> 24 &&& 0xff)]

def read8 : List UInt8 → Option (ℕ × List UInt8)
  | [] => none
  | byte :: data => some (byte.toNat, data)

def typeOf : ℕ → PackedValueType
  | 0 => positive5Bit
  | 1 => negative5Bit
  | 2 => positive13Bit
  | 3 => negative13Bit
  | 4 => constantRegister5Bit
  | 5 => constantRegister13Bit
  | _ => full32Bit

def read32 (data : List UInt8) : Option (ℕ × List UInt8) := do
  let (d0, data) ← read8 data
  match typeOf (d0 >>> 5) with
  | positive5Bit => some (d0, data)
  | negative5Bit => some (0xffffffe0 ||| d0, data)
  | positive13Bit =>
    let (d1, data) ← read8 data
    some ((d0 &&& 0x1F) <<< 8 ||| d1, data)
  | negative13Bit =>
    let (d1, data) ← read8 data
    some (0xffffe000 ||| (d0 &&& 0x1F) <<< 8 ||| d1, data)
  | constantRegister5Bit => some (0x40000000 ||| d0 &&& 0x1F, data)
  | constantRegister13Bit =>
    let (d1, data) ← read8 data
    some (0x40000000 ||| (d0 &&& 0x1F) <<< 8 ||| d1, data)
  | full32Bit =>
    let (d1, data) ← read8 data
    let (d2, data) ← read8 data
    let (d3, data) ← read8 data
    let (d4, data) ← read8 data
    some (d1 ||| d2 <<< 8 ||| d3 <<< 16 ||| d4 <<< 24, data)

def opcodeLengths : List ℕ :=
  [1, 2, 2, 3, 2, 5, 2, 4, 2, 4, 5, 4, 5, 3, 3, 3, 4, 3, 4, 3, 4, 4, 4, 4, 4, 4, 2, 2, 4, 3, 3, 5, 5, 5,
    4, 5, 4, 4, 4, 3, 5, 5, 5, 4, 4, 5, 3, 3, 3, 3, 3, 3, 3, 3, 3, 3, 4, 9, 9, 9, 9, 5, 5, 4, 9, 5, 4, 6,
    5, 5, 5, 4, 4, 5, 5, 6, 5, 5, 2, 3, 3, 3, 3, 4, 4, 4, 4, 4, 4, 4, 4, 4, 1, 4, 4, 4, 4, 4, 4, 4, 3, 9,
    9, 9, 9, 9, 9, 2, 9, 9, 4, 3, 7, 8, 7, 5, 4, 4, 5, 3, 3, 2, 3, 3, 2, 6, 2, 3, 5, 5, 4, 7, 3, 4, 4, 3,
    3, 4, 3, 4, 3, 1, 2, 3]

/-- The opcodes behind those of the list have no operands. -/
def opcodeLength (opcode : UInt8) : ℕ := opcodeLengths.getD opcode.toNat 1

def pack : List ℕ → List UInt8
  | [] => []
  | pc :: words =>
    let opcode := UInt8.ofNat pc
    opcode :: (words.take (opcodeLength opcode - 1)).flatMap append32 ++
      pack (words.drop (opcodeLength opcode - 1))
termination_by words => words.length
decreasing_by
  rw [length_drop, length_cons]
  omega

def bufferSize (instructionCount : ℕ) : ℕ := instructionCount * 5 % 2 ^ 32

def readOperands : ℕ → List UInt8 → Option (List ℕ × List UInt8)
  | 0, data => some ([], data)
  | count + 1, data => do
    let (operand, data) ← read32 data
    let (operands, data) ← readOperands count data
    some (operand :: operands, data)

def next (data : List UInt8) : Option (List ℕ × List UInt8) := do
  let (opcode, data) ← read8 data
  let (operands, data) ← readOperands (opcodeLength (UInt8.ofNat opcode) - 1) data
  some (opcode :: operands, data)

def readAll : ℕ → List UInt8 → Option (List (List ℕ))
  | _, [] => some []
  | 0, _ => none
  | steps + 1, data => do
    let (instruction, data) ← next data
    let instructions ← readAll steps data
    some (instruction :: instructions)

theorem and_five (n : ℕ) : n &&& 0x1f = n % 32 := Nat.and_two_pow_sub_one_eq_mod n 5

theorem and_eight (n : ℕ) : n &&& 0xff = n % 256 := Nat.and_two_pow_sub_one_eq_mod n 8

/-- The bits from a position on. -/
theorem and_mul_two_pow (value mask k : ℕ) :
    value &&& mask * 2 ^ k = (value / 2 ^ k &&& mask) * 2 ^ k := by
  apply Nat.eq_of_testBit_eq
  intro i
  by_cases hi : k ≤ i
  · simp [Nat.testBit_mul_two_pow, Nat.testBit_div_two_pow, hi]
  · simp [Nat.testBit_mul_two_pow, hi]

theorem and_high {value : ℕ} (h : value < 2 ^ 32) :
    value &&& 0xffffffe0 = value / 32 * 32 ∧ value &&& 0xffffe000 = value / 8192 * 8192 := by
  have hfive := and_mul_two_pow value (2 ^ 27 - 1) 5
  have hthirteen := and_mul_two_pow value (2 ^ 19 - 1) 13
  rw [Nat.and_two_pow_sub_one_eq_mod, Nat.mod_eq_of_lt (by omega)] at hfive hthirteen
  exact ⟨hfive, hthirteen⟩

theorem or_low {high low : ℕ} (k : ℕ) (hhigh : 2 ^ k ∣ high) (h : low < 2 ^ k) :
    high ||| low = high + low := by
  obtain ⟨n, rfl⟩ := hhigh
  exact (Nat.two_pow_add_eq_or_of_lt h n).symm

theorem shiftLeft_or {low : ℕ} (n k : ℕ) (h : low < 2 ^ k) : n <<< k ||| low = n * 2 ^ k + low := by
  rw [Nat.shiftLeft_eq, or_low k (Nat.dvd_mul_left _ _) h]

theorem toNat_packed (type : PackedValueType) (n : ℕ) :
    (packed type (n &&& 0x1f)).toNat = 32 * type.ctorIdx + n % 32 := by
  have htype : type.ctorIdx < 7 := by cases type <;> decide
  rw [packed, and_five, shiftLeft_or _ 5 (by omega), UInt8.toNat_ofNat']
  omega

theorem typeOf_packed (type : PackedValueType) (n : ℕ) :
    typeOf ((packed type (n &&& 0x1f)).toNat >>> 5) = type := by
  have hshift : (packed type (n &&& 0x1f)).toNat >>> 5 = type.ctorIdx := by
    rw [toNat_packed, Nat.shiftRight_eq_div_pow]
    omega
  rw [hshift]
  cases type <;> rfl

theorem low_packed (type : PackedValueType) (n : ℕ) :
    (packed type (n &&& 0x1f)).toNat &&& 0x1F = n % 32 := by
  rw [toNat_packed, and_five, Nat.mul_add_mod, Nat.mod_mod]

theorem toNat_byte (n : ℕ) : (UInt8.ofNat (n &&& 0xff)).toNat = n % 256 := by
  rw [and_eight, UInt8.toNat_ofNat', Nat.mod_mod]

theorem low_thirteen (n : ℕ) : (n >>> 8 % 32) <<< 8 ||| n % 256 = n % 8192 := by
  rw [shiftLeft_or _ 8 (by omega), Nat.shiftRight_eq_div_pow]
  omega

theorem bytes_or {n : ℕ} (h : n < 2 ^ 32) : n % 256 ||| ((n >>> 8 % 256) <<< 8 |||
    ((n >>> 16 % 256) <<< 16 ||| (n >>> 24 % 256) <<< 24)) = n := by
  simp only [Nat.shiftLeft_eq, Nat.shiftRight_eq_div_pow]
  have hthree : n / 2 ^ 16 % 256 * 2 ^ 16 ||| n / 2 ^ 24 % 256 * 2 ^ 24 = n / 2 ^ 16 * 2 ^ 16 := by
    rw [Nat.or_comm, or_low 24 (by omega) (by omega)]
    omega
  have htwo : n / 2 ^ 8 % 256 * 2 ^ 8 ||| n / 2 ^ 16 * 2 ^ 16 = n / 2 ^ 8 * 2 ^ 8 := by
    rw [Nat.or_comm, or_low 16 (by omega) (by omega)]
    omega
  rw [hthree, htwo, Nat.or_comm, or_low 8 (by omega) (by omega)]
  omega

theorem read32_append32 {value : ℕ} (h : value < 2 ^ 32) (rest : List UInt8) :
    read32 (append32 value ++ rest) = some (value, rest) := by
  rw [append32, (and_high h).1, (and_high h).2]
  split_ifs
  all_goals simp only [read32, cons_append, nil_append, read8, Option.bind_eq_bind, Option.bind_some,
    typeOf_packed, low_packed, toNat_byte, Nat.or_assoc, low_thirteen]
  · have hbyte : (UInt8.ofNat value).toNat = value := by
      rw [UInt8.toNat_ofNat']
      omega
    have htype : value >>> 5 = 0 := by
      rw [Nat.shiftRight_eq_div_pow]
      omega
    rw [hbyte, htype]
    rfl
  · have hor : ∀ low < 32, 0xffffffe0 ||| (32 * negative5Bit.ctorIdx + low) = 0xffffffe0 + low := by
      decide
    rw [toNat_packed, hor _ (by omega)]
    congr 2
    omega
  · rw [or_low 5 (by decide) (by omega)]
    congr 2
    omega
  · congr 2
    omega
  · rw [or_low 13 (by decide) (by omega)]
    congr 2
    omega
  · rw [or_low 13 (by decide) (by omega)]
    congr 2
    omega
  · rw [show typeOf ((packed full32Bit 0).toNat >>> 5) = full32Bit from typeOf_packed full32Bit 0]
    dsimp only
    rw [bytes_or h]

structure Instruction where
  opcode : UInt8
  operands : List UInt32
  length_eq : operands.length + 1 = opcodeLength opcode

def Instruction.words (instruction : Instruction) : List ℕ :=
  instruction.opcode.toNat :: instruction.operands.map UInt32.toNat

def packInstruction (instruction : Instruction) : List UInt8 :=
  instruction.opcode :: (instruction.operands.map UInt32.toNat).flatMap append32

theorem pack_flatMap (instructions : List Instruction) :
    pack (instructions.flatMap Instruction.words) = instructions.flatMap packInstruction := by
  induction instructions with
  | nil => rw [flatMap_nil, pack]; rfl
  | cons instruction instructions ih =>
    have hlen : opcodeLength instruction.opcode - 1 =
        (instruction.operands.map UInt32.toNat).length := by
      rw [length_map, ← instruction.length_eq, Nat.add_sub_cancel]
    rw [flatMap_cons, flatMap_cons, Instruction.words, cons_append, pack, ← ih]
    simp only [UInt8.ofNat_toNat, hlen, take_left, drop_left]
    rfl

theorem readOperands_flatMap (operands : List UInt32) (data : List UInt8) :
    readOperands operands.length ((operands.map UInt32.toNat).flatMap append32 ++ data) =
      some (operands.map UInt32.toNat, data) := by
  induction operands with
  | nil => rfl
  | cons operand operands ih =>
    rw [map_cons, flatMap_cons, append_assoc, length_cons, readOperands,
      read32_append32 operand.toNat_lt]
    simp [ih]

theorem next_packInstruction (instruction : Instruction) (data : List UInt8) :
    next (packInstruction instruction ++ data) = some (instruction.words, data) := by
  have hlen : opcodeLength instruction.opcode - 1 = instruction.operands.length := by
    rw [← instruction.length_eq, Nat.add_sub_cancel]
  simp [next, packInstruction, read8, hlen, readOperands_flatMap, Instruction.words]

theorem readAll_flatMap (instructions : List Instruction) (more : ℕ) :
    readAll (instructions.length + more) (instructions.flatMap packInstruction) =
      some (instructions.map Instruction.words) := by
  induction instructions with
  | nil => cases more <;> rfl
  | cons instruction instructions ih =>
    rw [flatMap_cons, length_cons, Nat.add_right_comm, readAll, next_packInstruction]
    · simp [ih]
    · rw [packInstruction]
      nofun

def operandSize (value : UInt32) : ℕ :=
  let value := value.toNat
  if value < 2 ^ 5 ∨ 2 ^ 32 - 2 ^ 5 ≤ value ∨ 2 ^ 30 ≤ value ∧ value < 2 ^ 30 + 2 ^ 5 then 1
  else if value < 2 ^ 13 ∨ 2 ^ 32 - 2 ^ 13 ≤ value ∨ 2 ^ 30 ≤ value ∧ value < 2 ^ 30 + 2 ^ 13 then 2
  else 5

def instructionSize (instruction : Instruction) : ℕ :=
  1 + (instruction.operands.map operandSize).sum

theorem length_append32 (value : UInt32) : (append32 value.toNat).length = operandSize value := by
  have hlt := value.toNat_lt
  rw [append32, (and_high hlt).1, (and_high hlt).2, operandSize]
  split_ifs <;> first | rfl | omega

theorem length_packInstruction (instruction : Instruction) :
    (packInstruction instruction).length = instructionSize instruction := by
  rw [packInstruction, length_cons, length_flatMap, map_map, instructionSize, Nat.add_comm]
  congr 3
  funext value
  exact length_append32 value

theorem length_pack (instructions : List Instruction) :
    (pack (instructions.flatMap Instruction.words)).length =
      (instructions.map instructionSize).sum := by
  rw [pack_flatMap, length_flatMap]
  congr 2
  funext instruction
  exact length_packInstruction instruction

theorem readAll_pack (instructions : List Instruction) {steps : ℕ}
    (hsteps : instructions.length ≤ steps) :
    readAll steps (pack (instructions.flatMap Instruction.words)) =
      some (instructions.map Instruction.words) := by
  obtain ⟨more, rfl⟩ := Nat.exists_eq_add_of_le hsteps
  rw [pack_flatMap, readAll_flatMap]

theorem length_flatMap_words (instructions : List Instruction) :
    (instructions.flatMap Instruction.words).length =
      (instructions.map fun instruction => opcodeLength instruction.opcode).sum := by
  rw [length_flatMap]
  congr 2
  funext instruction
  rw [Instruction.words, length_cons, length_map, instruction.length_eq]

/-- The instructions are read back; they are written within the buffer just where its size, counted
in 32 bits, is enough for them. -/
theorem pack_reads_back_iff (instructions : List Instruction) :
    (∀ steps, instructions.length ≤ steps →
        readAll steps (pack (instructions.flatMap Instruction.words)) =
          some (instructions.map Instruction.words)) ∧
      (pack (instructions.flatMap Instruction.words)).length ≤
        bufferSize (instructions.flatMap Instruction.words).length ↔
    (instructions.map instructionSize).sum ≤
      (instructions.map fun instruction => opcodeLength instruction.opcode).sum * 5 % 2 ^ 32 := by
  rw [length_pack, bufferSize, length_flatMap_words, and_iff_right]
  intro steps hsteps
  exact readAll_pack instructions hsteps

theorem operandSize_le (value : UInt32) : operandSize value ≤ 5 := by
  unfold operandSize
  dsimp only
  split_ifs <;> decide

theorem instructionSize_le (instruction : Instruction) :
    instructionSize instruction ≤ opcodeLength instruction.opcode * 5 := by
  have hsum : (instruction.operands.map operandSize).sum ≤ instruction.operands.length * 5 := by
    rw [← length_map operandSize]
    exact sum_le_card_nsmul _ 5 (forall_mem_map.mpr fun value _ => operandSize_le value)
  rw [instructionSize, ← instruction.length_eq]
  omega

/-- With fewer words than this the size of the buffer does not wrap around. -/
theorem pack_within_buffer_of_length_lt (instructions : List Instruction)
    (hlen : (instructions.flatMap Instruction.words).length < 858993460) :
    (∀ steps, instructions.length ≤ steps →
        readAll steps (pack (instructions.flatMap Instruction.words)) =
          some (instructions.map Instruction.words)) ∧
      (pack (instructions.flatMap Instruction.words)).length ≤
        bufferSize (instructions.flatMap Instruction.words).length := by
  refine ⟨fun steps hsteps => readAll_pack instructions hsteps, ?_⟩
  have hsize : (instructions.map instructionSize).sum ≤
      (instructions.map fun instruction => opcodeLength instruction.opcode * 5).sum :=
    sum_le_sum fun instruction _ => instructionSize_le instruction
  rw [sum_map_mul_right, ← length_flatMap_words] at hsize
  rw [length_pack, bufferSize, Nat.mod_eq_of_lt (by omega)]
  exact hsize

/-- For 858993460 instructions without operands the buffer has four bytes. -/
theorem not_within_buffer :
    ¬ (pack ((replicate 858993460 (⟨0, [], rfl⟩ : Instruction)).flatMap Instruction.words)).length ≤
      bufferSize ((replicate 858993460 (⟨0, [], rfl⟩ : Instruction)).flatMap Instruction.words).length := by
  rw [length_pack, length_flatMap, map_replicate, map_replicate, sum_replicate_nat, sum_replicate_nat]
  decide

end WebKit.Bytecode
