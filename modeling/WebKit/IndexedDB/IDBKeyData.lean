import Mathlib.Data.List.Lex
import Mathlib.Order.Compare
import Mathlib.Tactic

/-!
Keys of object stores and indexes. Keys are compared by their types and then by their values, arrays
element by element. The comparison and the equality do not tell the two zeros apart, while the hash
of a key is that of the bytes of its number: a set of keys and a hash map agree on what one key is
only if no two of their keys differ in the sign of a zero alone.
-/

namespace WebKit.IndexedDB

/-- The bytes of a double that is a number. -/
structure KeyNumber where
  bits : UInt64
  isNumber : bits.toNat % 2 ^ 63 ≤ 0x7ff0000000000000

/-- An integer that is ordered among others as the double is. -/
def KeyNumber.value (number : KeyNumber) : ℤ :=
  if number.bits.toNat < 2 ^ 63 then number.bits.toNat else -(number.bits.toNat % 2 ^ 63 : ℕ)

inductive IDBKeyData where
  | invalid
  | array (arrayValue : List IDBKeyData)
  | string (stringValue : List UInt16)
  | date (numberValue : KeyNumber)
  | number (numberValue : KeyNumber)

namespace IDBKeyData

def type : IDBKeyData → ℕ
  | invalid => 0
  | array _ => 1
  | string _ => 2
  | date _ => 3
  | number _ => 4

def codePointCompare : List UInt16 → List UInt16 → Ordering
  | c1 :: rest1, c2 :: rest2 =>
    if c1 = c2 then codePointCompare rest1 rest2 else if c1 > c2 then .gt else .lt
  | [], [] => .eq
  | _ :: _, [] => .gt
  | [], _ :: _ => .lt

def compareNumbers (number other : KeyNumber) : Ordering :=
  if number.value = other.value then .eq else if number.value > other.value then .gt else .lt

mutual

def compare : IDBKeyData → IDBKeyData → Ordering
  | invalid, invalid => .eq
  | invalid, _ => .lt
  | _, invalid => .gt
  | array value, array other => compareArrays value other
  | string value, string other => codePointCompare value other
  | date value, date other => compareNumbers value other
  | number value, number other => compareNumbers value other
  | key, other => if key.type < other.type then .gt else .lt

def compareArrays : List IDBKeyData → List IDBKeyData → Ordering
  | key :: rest, other :: otherRest => (compare key other).then (compareArrays rest otherRest)
  | [], [] => .eq
  | _ :: _, [] => .gt
  | [], _ :: _ => .lt

end

mutual

def equal : IDBKeyData → IDBKeyData → Bool
  | invalid, invalid => true
  | array value, array other => equalArrays value other
  | string value, string other => value = other
  | date value, date other => value.value = other.value
  | number value, number other => value.value = other.value
  | _, _ => false

def equalArrays : List IDBKeyData → List IDBKeyData → Bool
  | key :: rest, other :: otherRest => equal key other && equalArrays rest otherRest
  | [], [] => true
  | _, _ => false

end

mutual

/-- The key as a list of integers that no spelling of another key continues. -/
def spelling : IDBKeyData → List ℤ
  | invalid => [0]
  | number value => [1, value.value]
  | date value => [2, value.value]
  | string value => 3 :: (value.map fun c => (c.toNat : ℤ)) ++ [-1]
  | array value => 4 :: spellingOfArray value

def spellingOfArray : List IDBKeyData → List ℤ
  | [] => [-1]
  | key :: rest => spelling key ++ spellingOfArray rest

end

/-- The first list comes before every continuation of the second one, is equal to it, or comes after
it. -/
def Decides : Ordering → List ℤ → List ℤ → Prop
  | .lt, s, t => ∀ x y, s ++ x < t ++ y
  | .eq, s, t => s = t
  | .gt, s, t => ∀ x y, t ++ y < s ++ x

section Decides

variable {o o' : Ordering} {s s' t t' : List ℤ} {a b : ℤ}

theorem decides_cons (h : Decides o s t) : Decides o (a :: s) (a :: t) := by
  cases o with
  | lt => exact fun x y => List.cons_lt_cons_iff.mpr (.inr ⟨rfl, h x y⟩)
  | eq => exact congrArg _ h
  | gt => exact fun x y => List.cons_lt_cons_iff.mpr (.inr ⟨rfl, h x y⟩)

theorem decides_lt (h : a < b) : Decides .lt (a :: s) (b :: t) :=
  fun _ _ => List.cons_lt_cons_iff.mpr (.inl h)

theorem decides_gt (h : b < a) : Decides .gt (a :: s) (b :: t) :=
  fun _ _ => List.cons_lt_cons_iff.mpr (.inl h)

theorem decides_append (h : Decides o s t) (h' : Decides o' s' t') :
    Decides (o.then o') (s ++ s') (t ++ t') := by
  cases o with
  | lt =>
    intro x y
    rw [List.append_assoc, List.append_assoc]
    exact h _ _
  | gt =>
    intro x y
    rw [List.append_assoc, List.append_assoc]
    exact h _ _
  | eq =>
    cases h
    induction s with
    | nil => exact h'
    | cons a s ih => exact decides_cons ih

end Decides

theorem compareNumbers_decides (number other : KeyNumber) (a : ℤ) :
    Decides (compareNumbers number other) [a, number.value] [a, other.value] := by
  unfold compareNumbers
  refine decides_cons ?_
  split_ifs with heq hgt
  · exact congrArg (fun value => [value]) heq
  · exact decides_gt hgt
  · exact decides_lt (by omega)

theorem codePointCompare_decides (value other : List UInt16) :
    Decides (codePointCompare value other) ((value.map fun c => (c.toNat : ℤ)) ++ [-1])
      ((other.map fun c => (c.toNat : ℤ)) ++ [-1]) := by
  fun_induction codePointCompare value other with
  | case1 c rest1 rest2 ih => exact decides_cons ih
  | case2 c1 rest1 c2 rest2 hne hgt => exact decides_gt (Int.ofNat_lt.mpr (UInt16.lt_iff_toNat_lt.mp hgt))
  | case3 c1 rest1 c2 rest2 hne hgt =>
    refine decides_lt (Int.ofNat_lt.mpr (Nat.lt_of_le_of_ne ?_ fun heq => hne (UInt16.toNat_inj.mp heq)))
    exact UInt16.le_iff_toNat_le.mp (UInt16.not_lt.mp hgt)
  | case4 => exact rfl
  | case5 c rest => exact decides_gt (neg_one_lt_zero.trans_le (Int.natCast_nonneg _))
  | case6 c rest => exact decides_lt (neg_one_lt_zero.trans_le (Int.natCast_nonneg _))

theorem exists_spelling_eq (key : IDBKeyData) : ∃ first rest, spelling key = first :: rest ∧ 0 ≤ first := by
  cases key with
  | invalid => exact ⟨0, [], rfl, le_rfl⟩
  | number value => exact ⟨1, _, rfl, by decide⟩
  | date value => exact ⟨2, _, rfl, by decide⟩
  | string value => exact ⟨3, _, rfl, by decide⟩
  | array value => exact ⟨4, _, rfl, by decide⟩

mutual

theorem compare_decides (key other : IDBKeyData) :
    Decides (compare key other) (spelling key) (spelling other) := by
  cases key with
  | array value =>
    cases other with
    | array other => exact decides_cons (compareArrays_decides value other)
    | _ => exact decides_gt (by decide)
  | string value =>
    cases other with
    | string other => exact decides_cons (codePointCompare_decides value other)
    | array other => exact decides_lt (by decide)
    | _ => exact decides_gt (by decide)
  | date value =>
    cases other with
    | date other => exact compareNumbers_decides value other 2
    | array other => exact decides_lt (by decide)
    | string other => exact decides_lt (by decide)
    | _ => exact decides_gt (by decide)
  | number value =>
    cases other with
    | number other => exact compareNumbers_decides value other 1
    | invalid => exact decides_gt (by decide)
    | _ => exact decides_lt (by decide)
  | invalid =>
    cases other with
    | invalid => exact rfl
    | _ => exact decides_lt (by decide)

theorem compareArrays_decides (value other : List IDBKeyData) :
    Decides (compareArrays value other) (spellingOfArray value) (spellingOfArray other) := by
  cases value with
  | nil =>
    cases other with
    | nil => exact rfl
    | cons key rest =>
      obtain ⟨first, more, heq, hfirst⟩ := exists_spelling_eq key
      rw [compareArrays, spellingOfArray, spellingOfArray, heq]
      exact decides_lt (by omega)
  | cons key rest =>
    cases other with
    | nil =>
      obtain ⟨first, more, heq, hfirst⟩ := exists_spelling_eq key
      rw [compareArrays, spellingOfArray, spellingOfArray, heq]
      exact decides_gt (by omega)
    | cons other otherRest =>
      exact decides_append (compare_decides key other) (compareArrays_decides rest otherRest)

end

theorem compareNumbers_eq_iff (number other : KeyNumber) :
    compareNumbers number other = .eq ↔ number.value = other.value := by
  unfold compareNumbers
  split_ifs with heq hgt <;> simp [heq]

theorem codePointCompare_eq_iff (value other : List UInt16) :
    codePointCompare value other = .eq ↔ value = other := by
  fun_induction codePointCompare value other with
  | case1 c rest1 rest2 ih => simp [ih]
  | case2 c1 rest1 c2 rest2 hne hgt => simp [hne]
  | case3 c1 rest1 c2 rest2 hne hgt => simp [hne]
  | case4 => simp
  | case5 c rest => simp
  | case6 c rest => simp

mutual

/-- The comparison and the equality agree. -/
theorem compare_eq_iff (key other : IDBKeyData) : compare key other = .eq ↔ equal key other := by
  cases key with
  | array value =>
    cases other with
    | array other => exact compareArrays_eq_iff value other
    | _ => simp [compare, equal, type]
  | string value =>
    cases other with
    | string other => exact (codePointCompare_eq_iff value other).trans decide_eq_true_iff.symm
    | _ => simp [compare, equal, type]
  | date value =>
    cases other with
    | date other => exact (compareNumbers_eq_iff value other).trans decide_eq_true_iff.symm
    | _ => simp [compare, equal, type]
  | number value =>
    cases other with
    | number other => exact (compareNumbers_eq_iff value other).trans decide_eq_true_iff.symm
    | _ => simp [compare, equal, type]
  | invalid =>
    cases other with
    | invalid => exact iff_of_true rfl rfl
    | _ => simp [compare, equal]

theorem compareArrays_eq_iff (value other : List IDBKeyData) :
    compareArrays value other = .eq ↔ equalArrays value other := by
  cases value with
  | nil =>
    cases other with
    | nil => exact iff_of_true rfl rfl
    | cons key rest => simp [compareArrays, equalArrays]
  | cons key rest =>
    cases other with
    | nil => simp [compareArrays, equalArrays]
    | cons other otherRest =>
      rw [compareArrays, equalArrays, Bool.and_eq_true, ← compare_eq_iff key other,
        ← compareArrays_eq_iff rest otherRest, Ordering.then_eq_eq]

end

example : equal (number ⟨0, by decide⟩) (number ⟨0x8000000000000000, by decide⟩) = true := rfl

end IDBKeyData

open IDBKeyData

/-- Keys that are equal only if they are the same, so that they also have the same hash. -/
structure KeySpace where
  carrier : Set IDBKeyData
  eq_of_equal : ∀ key ∈ carrier, ∀ other ∈ carrier, key.equal other → key = other

namespace KeySpace

variable (keys : KeySpace)

def Key : Type := {key // key ∈ keys.carrier}

variable {keys}

instance : Preorder keys.Key := Preorder.lift fun key => spelling key.1

theorem compares (key other : keys.Key) : (key.1.compare other.1).Compares key other := by
  have hdecides := compare_decides key.1 other.1
  cases hcompare : key.1.compare other.1 with
  | lt =>
    rw [hcompare] at hdecides
    have hlt := hdecides [] []
    rwa [List.append_nil, List.append_nil] at hlt
  | eq => exact Subtype.ext (keys.eq_of_equal _ key.2 _ other.2 ((compare_eq_iff _ _).mp hcompare))
  | gt =>
    rw [hcompare] at hdecides
    have hlt := hdecides [] []
    rwa [List.append_nil, List.append_nil] at hlt

/-- The order of the keys is the one of the comparison. -/
instance : LinearOrder keys.Key :=
  linearOrderOfCompares (fun key other => key.1.compare other.1) compares

theorem lt_iff_compare {key other : keys.Key} : key < other ↔ key.1.compare other.1 = .lt :=
  (compares key other).eq_lt.symm

/-- The numbers without a sign. -/
def unsignedNumbers : KeySpace where
  carrier := {key | ∃ value : KeyNumber, value.bits.toNat < 2 ^ 63 ∧ key = number value}
  eq_of_equal := by
    rintro _ ⟨value, hvalue, rfl⟩ _ ⟨other, hother, rfl⟩ hequal
    have heq : value.value = other.value := of_decide_eq_true hequal
    rw [KeyNumber.value, KeyNumber.value, if_pos hvalue, if_pos hother, Int.natCast_inj] at heq
    obtain ⟨bits, hbits⟩ := value
    obtain ⟨otherBits, hotherBits⟩ := other
    obtain rfl : bits = otherBits := UInt64.toNat_inj.mp heq
    rfl

def unsignedNumber (bits : UInt64) (h : bits.toNat ≤ 0x7ff0000000000000) : unsignedNumbers.Key :=
  ⟨number ⟨bits, (Nat.mod_le _ _).trans h⟩, ⟨bits, (Nat.mod_le _ _).trans h⟩, by
    show bits.toNat < 2 ^ 63
    omega, rfl⟩

end KeySpace

end WebKit.IndexedDB
