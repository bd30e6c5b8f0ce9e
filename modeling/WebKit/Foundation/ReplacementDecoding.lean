import WebKit.Foundation.Unicode

/-!
Decoding of bytes that need not be UTF-8. Where the sequence of a character stands at the front of
the bytes, that character is read; otherwise one byte is replaced. No sequence is the beginning of
another one, so what is read is determined by the bytes.
-/

namespace WebKit.Unicode

open List

def sequenceLength (first : UInt8) : ℕ :=
  if first.toNat < 0x80 then 1 else if first.toNat < 0xE0 then 2 else if first.toNat < 0xF0 then 3
  else 4

variable {c : Char} {bytes : List UInt8}

theorem length_eq_sequenceLength {first : UInt8} {tail : List UInt8} (h : utf8 c = first :: tail) :
    (utf8 c).length = sequenceLength first := by
  unfold sequenceLength
  rcases utf8_cases c with ⟨a, hc⟩ | ⟨a, b, hc⟩ | ⟨a, b, d, hc⟩ | ⟨a, b, d, e, hc⟩
  all_goals
    obtain ⟨rfl, -⟩ := cons_eq_cons.mp (hc.symm.trans h)
    rw [hc]
  · rw [if_pos (utf8_one_iff.mp hc).1]
    rfl
  · obtain ⟨hlow, hhigh, -⟩ := utf8_two_iff.mp hc
    rw [if_neg (by omega), if_pos (by omega)]
    rfl
  · obtain ⟨hfst, -⟩ := utf8_three_iff.mp hc
    rw [if_neg (by omega), if_neg (by omega), if_pos (by omega)]
    rfl
  · obtain ⟨hfst, -⟩ := utf8_four_iff.mp hc
    rw [if_neg (by omega), if_neg (by omega), if_neg (by omega)]
    rfl

theorem utf8_ne_nil (c : Char) : utf8 c ≠ [] := String.utf8EncodeChar_ne_nil

/-- A sequence at the front is as long as its first byte says. -/
theorem utf8_eq_take {first : UInt8} (h : utf8 c <+: first :: bytes) :
    utf8 c = (first :: bytes).take (sequenceLength first) := by
  obtain ⟨head, tail, hc⟩ := exists_cons_of_ne_nil (utf8_ne_nil c)
  have hhead : head = first := by
    rw [hc] at h
    exact (cons_prefix_cons.mp h).1
  subst hhead
  rw [← length_eq_sequenceLength hc]
  exact prefix_iff_eq_take.mp h

theorem utf8_injective {d : Char} (h : utf8 c = utf8 d) : c = d := by
  apply toNat_inj
  rcases utf8_cases c with ⟨a, hc⟩ | ⟨a, b, hc⟩ | ⟨a, b, e, hc⟩ | ⟨a, b, e, f, hc⟩
  all_goals have hd := h.symm.trans hc
  · rw [(utf8_one_iff.mp hc).2, (utf8_one_iff.mp hd).2]
  · rw [(utf8_two_iff.mp hc).2.2.2, (utf8_two_iff.mp hd).2.2.2]
  · rw [(utf8_three_iff.mp hc).2.2.2.2.2, (utf8_three_iff.mp hd).2.2.2.2.2]
  · rw [(utf8_four_iff.mp hc).2.2.2.2.2.2, (utf8_four_iff.mp hd).2.2.2.2.2.2]

/-- No sequence is the beginning of another one. -/
theorem utf8_append_inj {d : Char} {bytes' : List UInt8} (h : utf8 c ++ bytes = utf8 d ++ bytes') :
    c = d ∧ bytes = bytes' := by
  obtain ⟨first, tail, hc⟩ := exists_cons_of_ne_nil (utf8_ne_nil c)
  have hfront : utf8 c <+: first :: (tail ++ bytes) := ⟨bytes, by rw [hc, cons_append]⟩
  have hfront' : utf8 d <+: first :: (tail ++ bytes) :=
    ⟨bytes', by rw [← h, hc, cons_append]⟩
  have hcd : utf8 c = utf8 d := (utf8_eq_take hfront).trans (utf8_eq_take hfront').symm
  obtain rfl := utf8_injective hcd
  exact ⟨rfl, append_cancel_left h⟩

def StartsNone (bytes : List UInt8) : Prop := ∀ c : Char, ¬ utf8 c <+: bytes

def replacement : UInt16 := 0xFFFD

inductive Reads : List UInt8 → List UInt16 → Bool → List UInt8 → Prop
  | done (left : List UInt8) : Reads left [] false left
  | character (c : Char) {bytes left : List UInt8} {units : List UInt16} {replaced : Bool} :
      Reads bytes units replaced left → Reads (utf8 c ++ bytes) (utf16 c ++ units) replaced left
  | error {byte : UInt8} {bytes left : List UInt8} {units : List UInt16} {replaced : Bool} :
      StartsNone (byte :: bytes) → Reads bytes units replaced left →
        Reads (byte :: bytes) (replacement :: units) true left

def DecodesTo (bytes : List UInt8) (units : List UInt16) (replaced : Bool) : Prop :=
  Reads bytes units replaced []

namespace Reads

variable {bytes middle left : List UInt8} {units units' : List UInt16} {replaced replaced' : Bool}

theorem trans (h : Reads bytes units replaced middle) (h' : Reads middle units' replaced' left) :
    Reads bytes (units ++ units') (replaced || replaced') left := by
  induction h with
  | done middle => exact h'
  | character c _ ih =>
    rw [append_assoc]
    exact .character c (ih h')
  | error hnone _ ih => exact .error hnone (ih h')

theorem exists_append (h : Reads bytes units replaced left) : ∃ read, bytes = read ++ left := by
  induction h with
  | done left => exact ⟨[], rfl⟩
  | character c _ ih =>
    obtain ⟨read, rfl⟩ := ih
    exact ⟨utf8 c ++ read, (append_assoc _ _ _).symm⟩
  | error _ _ ih =>
    obtain ⟨read, rfl⟩ := ih
    exact ⟨_ :: read, rfl⟩

end Reads

theorem exists_decodesTo (bytes : List UInt8) :
    ∃ units replaced, DecodesTo bytes units replaced := by
  induction hlen : bytes.length using Nat.strong_induction_on generalizing bytes with
  | h n ih =>
    cases bytes with
    | nil => exact ⟨[], false, .done []⟩
    | cons byte rest =>
      by_cases hnone : StartsNone (byte :: rest)
      · obtain ⟨units, replaced, hrest⟩ := ih rest.length (by rw [← hlen]; exact Nat.lt_succ_self _)
          rest rfl
        exact ⟨_, _, .error hnone hrest⟩
      · obtain ⟨c, hc⟩ := not_forall.mp hnone
        obtain ⟨after, hafter⟩ := not_not.mp hc
        have hpos := length_pos_of_ne_nil (utf8_ne_nil c)
        obtain ⟨units, replaced, hrest⟩ := ih after.length
          (by rw [← hlen, ← hafter, length_append]; omega) after rfl
        rw [← hafter]
        exact ⟨_, _, .character c hrest⟩

/-- What the bytes are read as is determined by them. -/
theorem DecodesTo.unique {units units' : List UInt16} {replaced replaced' : Bool}
    (h : DecodesTo bytes units replaced) (h' : DecodesTo bytes units' replaced') :
    units = units' ∧ replaced = replaced' := by
  unfold DecodesTo at h
  generalize hleft : ([] : List UInt8) = left at h
  induction h generalizing units' replaced' with
  | done left =>
    subst hleft
    generalize hbytes : ([] : List UInt8) = bytes at h'
    cases h' with
    | done => exact ⟨rfl, rfl⟩
    | character c _ => exact absurd (append_eq_nil_iff.mp hbytes.symm).1 (utf8_ne_nil c)
    | error _ _ => exact absurd hbytes.symm (cons_ne_nil _ _)
  | @character c bytes left units replaced _ ih =>
    generalize hbytes : utf8 c ++ bytes = whole at h'
    cases h' with
    | done => exact absurd (append_eq_nil_iff.mp hbytes).1 (utf8_ne_nil c)
    | character d h' =>
      obtain ⟨rfl, rfl⟩ := utf8_append_inj hbytes
      obtain ⟨rfl, rfl⟩ := ih h' hleft
      exact ⟨rfl, rfl⟩
    | error hnone _ => exact absurd ⟨bytes, hbytes⟩ (hnone c)
  | @error byte bytes left units replaced hnone _ ih =>
    generalize hbytes : byte :: bytes = whole at h'
    cases h' with
    | done => exact absurd hbytes (cons_ne_nil _ _)
    | character d _ =>
      rw [hbytes] at hnone
      exact absurd (prefix_append _ _) (hnone d)
    | error _ h' =>
      obtain ⟨rfl, rfl⟩ := cons_eq_cons.mp hbytes
      obtain ⟨rfl, rfl⟩ := ih h' hleft
      exact ⟨rfl, rfl⟩

/-- Behind what has been read, the rest is decoded by itself. -/
theorem Reads.cancel {left : List UInt8} {units units' : List UInt16} {replaced replaced' : Bool}
    (h : Reads bytes units replaced left) (h' : DecodesTo bytes (units ++ units') replaced') :
    ∃ later, DecodesTo left units' later := by
  obtain ⟨others, later, hoths⟩ := exists_decodesTo left
  obtain ⟨heq, -⟩ := DecodesTo.unique h' (h.trans hoths)
  rw [append_cancel_left heq]
  exact ⟨later, hoths⟩

end WebKit.Unicode
