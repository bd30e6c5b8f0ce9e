import Mathlib

/-!
Numbers stored lowest byte first in a fixed number of bytes.
-/
namespace WebKit.LittleEndian

def encode : ℕ → ℕ → List UInt8
  | 0, _ => []
  | width + 1, n => UInt8.ofNat n :: encode width (n / 256)

def decode : List UInt8 → ℕ
  | [] => 0
  | byte :: rest => byte.toNat + 256 * decode rest

@[simp] theorem length_encode (width n : ℕ) : (encode width n).length = width := by
  induction width generalizing n with
  | zero => rfl
  | succ width ih => simp [encode, ih]

/-- Reading back keeps the bytes that fit. -/
theorem decode_encode_mod (width n : ℕ) : decode (encode width n) = n % 256 ^ width := by
  induction width generalizing n with
  | zero => simp [encode, decode, Nat.mod_one]
  | succ width ih =>
    have hbyte : (UInt8.ofNat n).toNat = n % 256 := by simp
    rw [encode, decode, ih, hbyte, pow_succ, mul_comm (256 ^ width), Nat.mod_mul]

theorem decode_encode {width n : ℕ} (h : n < 256 ^ width) : decode (encode width n) = n := by
  rw [decode_encode_mod, Nat.mod_eq_of_lt h]

theorem decode_lt (bytes : List UInt8) : decode bytes < 256 ^ bytes.length := by
  induction bytes with
  | nil => simp [decode]
  | cons byte rest ih =>
    have hbyte := byte.toNat_lt
    rw [decode, List.length_cons, pow_succ]
    omega

/-- Storing again gives the same bytes. -/
theorem encode_decode (bytes : List UInt8) : encode bytes.length (decode bytes) = bytes := by
  induction bytes with
  | nil => rfl
  | cons byte rest ih =>
    have hbyte := byte.toNat_lt
    have hlow : UInt8.ofNat (byte.toNat + 256 * decode rest) = byte := by
      apply UInt8.toNat_inj.mp
      rw [UInt8.toNat_ofNat']
      omega
    have hhigh : (byte.toNat + 256 * decode rest) / 256 = decode rest := by omega
    rw [List.length_cons, decode, encode, hlow, hhigh, ih]

/-- Two numbers have no bit in common when their bytes have none. -/
theorem decode_and_eq_zero_iff {byte byte' : UInt8} {rest rest' : List UInt8} :
    decode (byte :: rest) &&& decode (byte' :: rest') = 0 ↔
      byte.toNat &&& byte'.toNat = 0 ∧ decode rest &&& decode rest' = 0 := by
  have hbyte := byte.toNat_lt
  have hbyte' := byte'.toNat_lt
  have hlow : (decode (byte :: rest) &&& decode (byte' :: rest')) % 2 ^ 8 =
      byte.toNat &&& byte'.toNat := by
    rw [Nat.and_mod_two_pow, decode, decode]
    congr 1 <;> omega
  have hhigh : (decode (byte :: rest) &&& decode (byte' :: rest')) / 2 ^ 8 =
      decode rest &&& decode rest' := by
    rw [Nat.and_div_two_pow, decode, decode]
    congr 1 <;> omega
  omega

end WebKit.LittleEndian
