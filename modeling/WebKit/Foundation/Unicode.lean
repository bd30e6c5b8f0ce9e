import Mathlib

/-!
Unicode characters as sequences of code units. A character is a scalar value: a code point that is
not a surrogate. Its UTF-8 sequence is the one of the core library; here the sequences of each length
are told apart by the ranges of their bytes, so that a decoder that checks these ranges can be
compared with them. In UTF-16 a character is one unit or a pair of surrogates.
-/

namespace WebKit.Unicode

abbrev utf8 (c : Char) : List UInt8 := String.utf8EncodeChar c

def IsTail (byte : UInt8) : Prop := 0x80 ≤ byte.toNat ∧ byte.toNat ≤ 0xBF

def IsScalar (n : ℕ) : Prop := n < 0xD800 ∨ 0xDFFF < n ∧ n < 0x110000

theorem isScalar_toNat (c : Char) : IsScalar c.toNat := c.valid

variable {n : ℕ} {c : Char} {a b : UInt8}

theorem exists_toNat_eq (h : IsScalar n) : ∃ c : Char, c.toNat = n := by
  have hlt : n < 2 ^ 32 := by
    unfold IsScalar at h
    omega
  have hval : (UInt32.ofNat n).toNat = n := by
    rw [UInt32.toNat_ofNat']
    exact Nat.mod_eq_of_lt hlt
  refine ⟨⟨UInt32.ofNat n, ?_⟩, hval⟩
  rw [UInt32.isValidChar, hval]
  exact h

theorem toNat_inj {d : Char} (h : c.toNat = d.toNat) : c = d := Char.toNat_inj.mp h

/-- The sequence of a character, by its length. -/
theorem utf8_eq (c : Char) : utf8 c =
    if c.toNat ≤ 0x7F then [UInt8.ofNat c.toNat]
    else if c.toNat ≤ 0x7FF then
      [UInt8.ofNat (c.toNat / 64 % 0x20 + 0xC0), UInt8.ofNat (c.toNat % 0x40 + 0x80)]
    else if c.toNat ≤ 0xFFFF then
      [UInt8.ofNat (c.toNat / 4096 % 0x10 + 0xE0), UInt8.ofNat (c.toNat / 64 % 0x40 + 0x80),
        UInt8.ofNat (c.toNat % 0x40 + 0x80)]
    else
      [UInt8.ofNat (c.toNat / 262144 % 0x08 + 0xF0), UInt8.ofNat (c.toNat / 4096 % 0x40 + 0x80),
        UInt8.ofNat (c.toNat / 64 % 0x40 + 0x80), UInt8.ofNat (c.toNat % 0x40 + 0x80)] := rfl

theorem length_utf8 (c : Char) : (utf8 c).length =
    if c.toNat ≤ 0x7F then 1 else if c.toNat ≤ 0x7FF then 2 else if c.toNat ≤ 0xFFFF then 3 else 4 := by
  rw [utf8_eq]
  split_ifs
  all_goals rfl

theorem eq_ofNat_iff {byte : UInt8} (hn : n < 256) : UInt8.ofNat n = byte ↔ byte.toNat = n := by
  rw [← UInt8.toNat_inj, UInt8.toNat_ofNat']
  omega

theorem utf8_one_iff : utf8 c = [a] ↔ a.toNat < 0x80 ∧ c.toNat = a.toNat := by
  rw [utf8_eq]
  constructor
  · intro h
    split_ifs at h with hone
    · rw [List.cons.injEq, eq_ofNat_iff (by omega)] at h
      omega
    all_goals simp at h
  · rintro ⟨hlt, hc⟩
    rw [if_pos (by omega), List.cons.injEq, eq_ofNat_iff (by omega)]
    exact ⟨hc.symm, rfl⟩

theorem utf8_two_iff : utf8 c = [a, b] ↔ 0xC2 ≤ a.toNat ∧ a.toNat ≤ 0xDF ∧ IsTail b ∧
      c.toNat = (a.toNat - 0xC0) * 64 + (b.toNat - 0x80) := by
  rw [utf8_eq, IsTail]
  constructor
  · intro h
    split_ifs at h with hone htwo hthree
    · simp at h
    · rw [List.cons.injEq, List.cons.injEq, eq_ofNat_iff (by omega), eq_ofNat_iff (by omega)] at h
      omega
    · simp at h
    · simp at h
  · intro h
    rw [if_neg (by omega), if_pos (by omega), List.cons.injEq, List.cons.injEq,
      eq_ofNat_iff (by omega), eq_ofNat_iff (by omega)]
    exact ⟨by omega, by omega, rfl⟩

theorem utf8_three_iff {d : UInt8} : utf8 c = [a, b, d] ↔
    (0xE0 ≤ a.toNat ∧ a.toNat ≤ 0xEF) ∧ IsTail b ∧ IsTail d ∧ (a.toNat = 0xE0 → 0xA0 ≤ b.toNat) ∧
      (a.toNat = 0xED → b.toNat ≤ 0x9F) ∧
      c.toNat = (a.toNat - 0xE0) * 4096 + (b.toNat - 0x80) * 64 + (d.toNat - 0x80) := by
  have hscalar := isScalar_toNat c
  unfold IsScalar at hscalar
  rw [utf8_eq, IsTail, IsTail]
  constructor
  · intro h
    split_ifs at h with hone htwo hthree
    · simp at h
    · simp at h
    · simp (disch := omega) only [List.cons.injEq, eq_ofNat_iff, and_true] at h
      omega
    · simp at h
  · intro h
    rw [if_neg (by omega), if_neg (by omega), if_pos (by omega)]
    simp (disch := omega) only [List.cons.injEq, eq_ofNat_iff, and_true]
    omega

theorem utf8_four_iff {d e : UInt8} : utf8 c = [a, b, d, e] ↔
    (0xF0 ≤ a.toNat ∧ a.toNat ≤ 0xF4) ∧ IsTail b ∧ IsTail d ∧ IsTail e ∧
      (a.toNat = 0xF0 → 0x90 ≤ b.toNat) ∧ (a.toNat = 0xF4 → b.toNat ≤ 0x8F) ∧
      c.toNat = (a.toNat - 0xF0) * 262144 + (b.toNat - 0x80) * 4096 + (d.toNat - 0x80) * 64 +
        (e.toNat - 0x80) := by
  have hscalar := isScalar_toNat c
  unfold IsScalar at hscalar
  rw [utf8_eq, IsTail, IsTail, IsTail]
  constructor
  · intro h
    split_ifs at h with hone htwo hthree
    · simp at h
    · simp at h
    · simp at h
    · simp (disch := omega) only [List.cons.injEq, eq_ofNat_iff, and_true] at h
      omega
  · intro h
    rw [if_neg (by omega), if_neg (by omega), if_neg (by omega)]
    simp (disch := omega) only [List.cons.injEq, eq_ofNat_iff, and_true]
    omega

/-- Every sequence has one of four lengths. -/
theorem utf8_cases (c : Char) : (∃ a, utf8 c = [a]) ∨ (∃ a b, utf8 c = [a, b]) ∨
    (∃ a b d, utf8 c = [a, b, d]) ∨ ∃ a b d e, utf8 c = [a, b, d, e] := by
  rw [utf8_eq]
  split_ifs
  · exact .inl ⟨_, rfl⟩
  · exact .inr (.inl ⟨_, _, rfl⟩)
  · exact .inr (.inr (.inl ⟨_, _, _, rfl⟩))
  · exact .inr (.inr (.inr ⟨_, _, _, _, rfl⟩))

def IsLead (unit : UInt16) : Prop := 0xD800 ≤ unit.toNat ∧ unit.toNat ≤ 0xDBFF

def IsTrail (unit : UInt16) : Prop := 0xDC00 ≤ unit.toNat ∧ unit.toNat ≤ 0xDFFF

def utf16 (c : Char) : List UInt16 :=
  if c.toNat < 0x10000 then [UInt16.ofNat c.toNat]
  else [UInt16.ofNat (0xD800 + (c.toNat - 0x10000) / 0x400),
    UInt16.ofNat (0xDC00 + (c.toNat - 0x10000) % 0x400)]

theorem eq_ofNat16_iff {unit : UInt16} (hn : n < 0x10000) :
    UInt16.ofNat n = unit ↔ unit.toNat = n := by
  rw [← UInt16.toNat_inj, UInt16.toNat_ofNat']
  omega

theorem utf16_one_iff {a : UInt16} : utf16 c = [a] ↔ c.toNat = a.toNat := by
  have ha := a.toNat_lt
  rw [utf16]
  constructor
  · intro h
    split_ifs at h with hone
    · rw [List.cons.injEq, eq_ofNat16_iff hone] at h
      exact h.1.symm
    · simp at h
  · intro h
    rw [if_pos (by omega), List.cons.injEq, eq_ofNat16_iff (by omega)]
    exact ⟨h.symm, rfl⟩

theorem utf16_two_iff {a b : UInt16} : utf16 c = [a, b] ↔ IsLead a ∧ IsTrail b ∧
    c.toNat = (a.toNat - 0xD800) * 0x400 + (b.toNat - 0xDC00) + 0x10000 := by
  have hscalar := isScalar_toNat c
  unfold IsScalar at hscalar
  rw [utf16, IsLead, IsTrail]
  constructor
  · intro h
    split_ifs at h with hone
    · simp at h
    · rw [List.cons.injEq, List.cons.injEq, eq_ofNat16_iff (by omega), eq_ofNat16_iff (by omega)] at h
      omega
  · intro h
    rw [if_neg (by omega), List.cons.injEq, List.cons.injEq, eq_ofNat16_iff (by omega),
      eq_ofNat16_iff (by omega)]
    exact ⟨by omega, by omega, rfl⟩

theorem utf16_cases (c : Char) : (∃ a, utf16 c = [a]) ∨ ∃ a b, utf16 c = [a, b] := by
  rw [utf16]
  split_ifs
  · exact .inl ⟨_, rfl⟩
  · exact .inr ⟨_, _, rfl⟩

def NoUnpairedSurrogate (units : List UInt16) : Prop :=
  ∀ before unit after, units = before ++ unit :: after →
    (IsLead unit → ∃ trail ∈ after.head?, IsTrail trail) ∧
      (IsTrail unit → ∃ lead ∈ before.getLast?, IsLead lead)

/-- No unit misses what stands before a unit that is not the first of a pair. -/
theorem NoUnpairedSurrogate.of_append (before : List UInt16) {units : List UInt16}
    (h : NoUnpairedSurrogate (before ++ units)) (hlast : ∀ last ∈ before.getLast?, ¬ IsLead last) :
    NoUnpairedSurrogate units := by
  intro front unit after hunits
  obtain ⟨hlead, htrail⟩ := h (before ++ front) unit after (by rw [hunits, List.append_assoc])
  refine ⟨hlead, fun hunit => ?_⟩
  obtain ⟨lead, hmem, hislead⟩ := htrail hunit
  cases front with
  | nil =>
    rw [List.append_nil] at hmem
    exact absurd hislead (hlast lead hmem)
  | cons second front =>
    rw [List.getLast?_append_of_ne_nil _ (List.cons_ne_nil _ _)] at hmem
    exact ⟨lead, hmem, hislead⟩

/-- Such units are a sequence of characters. -/
theorem NoUnpairedSurrogate.exists_flatMap {units : List UInt16} (h : NoUnpairedSurrogate units) :
    ∃ characters : List Char, units = characters.flatMap utf16 := by
  induction hlen : units.length using Nat.strong_induction_on generalizing units with
  | h n ih =>
    cases units with
    | nil => exact ⟨[], rfl⟩
    | cons first rest =>
      obtain ⟨hlead, htrail⟩ := h [] first rest rfl
      have hfst := first.toNat_lt
      by_cases hislead : IsLead first
      · obtain ⟨trail, hhead, histrail⟩ := hlead hislead
        obtain ⟨rest, rfl⟩ : ∃ after, rest = trail :: after := List.head?_eq_some_iff.mp hhead
        have hnotlead : ¬ IsLead trail := by
          unfold IsTrail at histrail
          unfold IsLead
          omega
        obtain ⟨characters, hchars⟩ := ih rest.length
          (by rw [← hlen, List.length_cons, List.length_cons]; omega)
          (of_append [first, trail] h (by simpa using hnotlead)) rfl
        obtain ⟨c, hc⟩ : ∃ c : Char,
            c.toNat = (first.toNat - 0xD800) * 0x400 + (trail.toNat - 0xDC00) + 0x10000 := by
          apply exists_toNat_eq
          unfold IsLead at hislead
          unfold IsTrail at histrail
          unfold IsScalar
          omega
        refine ⟨c :: characters, ?_⟩
        rw [List.flatMap_cons, ← hchars, utf16_two_iff.mpr ⟨hislead, histrail, hc⟩]
        rfl
      · obtain ⟨characters, hchars⟩ := ih rest.length
          (by rw [← hlen, List.length_cons]; omega) (of_append [first] h (by simpa using hislead)) rfl
        have hnottrail : ¬ IsTrail first := fun histrail => by simpa using htrail histrail
        obtain ⟨c, hc⟩ : ∃ c : Char, c.toNat = first.toNat := by
          apply exists_toNat_eq
          unfold IsLead at hislead
          unfold IsTrail at hnottrail
          unfold IsScalar
          omega
        refine ⟨c :: characters, ?_⟩
        rw [List.flatMap_cons, ← hchars, utf16_one_iff.mpr hc]
        rfl

end WebKit.Unicode
