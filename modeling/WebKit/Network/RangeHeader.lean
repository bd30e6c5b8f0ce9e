import Mathlib

/-!
The parser of the Range header. The header asks for the positions from a first to a last one, for
those from a first one on, or for a number of positions at the end. Numbers may have white space
around them and a plus sign; one that does not fit into 64 bits is refused, except as the number of
positions at the end, where it counts as no range. Behind a minus sign the accumulator may reach
minus two to the 63, and reading then begins again.
-/

namespace WebKit.Network

open List

def toASCIILower (c : UInt16) : UInt16 :=
  if 0x41 ≤ c.toNat ∧ c.toNat ≤ 0x5A then c + 0x20 else c

/-- What the Unicode library says of characters: how letters are folded, and which characters outside
of ASCII are white space. -/
structure CharacterTables where
  foldCase : UInt16 → UInt16
  isWhiteSpaceNeutral : UInt16 → Bool
  foldCase_ascii : ∀ {c : UInt16}, c.toNat < 0x80 → foldCase c = toASCIILower c

def asciiTables : CharacterTables := ⟨toASCIILower, fun _ => false, fun _ => rfl⟩

variable (tables : CharacterTables)

def isASCIISpace (c : UInt16) : Bool :=
  c.toNat ≤ 0x20 ∧ (c.toNat = 0x20 ∨ c.toNat ≤ 0xD ∧ c.toNat ≥ 0x9)

def isASCIIDigit (c : UInt16) : Bool := 0x30 ≤ c.toNat ∧ c.toNat ≤ 0x39

def isSpaceOrNewline (c : UInt16) : Bool :=
  if c.toNat ≤ 0x7F then isASCIISpace c else tables.isWhiteSpaceNeutral c

def stripWhiteSpace (text : List UInt16) : List UInt16 :=
  ((text.dropWhile (isSpaceOrNewline tables)).reverse.dropWhile (isSpaceOrNewline tables)).reverse

def integralMax : ℤ := 2 ^ 63 - 1

def digitValue (c : UInt16) : ℕ := c.toNat - 0x30

/-- The accumulator is a signed integer of 64 bits, and wraps around. -/
def readDigits (isNegative : Bool) : ℤ → List UInt16 → Option (ℤ × List UInt16)
  | value, [] => some (value, [])
  | value, c :: rest =>
    if isASCIIDigit c then
      if value > integralMax / 10 ∨
          value = integralMax / 10 ∧ digitValue c > integralMax % 10 + isNegative.toNat then none
      else readDigits isNegative ((10 * value + digitValue c).bmod (2 ^ 64)) rest
    else some (value, c :: rest)

def minusSign : UInt16 := 0x2D

def plusSign : UInt16 := 0x2B

def readSign : List UInt16 → Bool × List UInt16
  | [] => (false, [])
  | c :: rest => if c = minusSign then (true, rest) else if c = plusSign then (false, rest)
    else (false, c :: rest)

def toInt64Strict (text : List UInt16) : Option ℤ :=
  let (isNegative, digits) := readSign (text.dropWhile (isSpaceOrNewline tables))
  if digits.head?.any isASCIIDigit then
    match readDigits isNegative 0 digits with
    | none => none
    | some (value, rest) =>
      if rest.dropWhile (isSpaceOrNewline tables) = [] then
        some (if isNegative then (-value).bmod (2 ^ 64) else value)
      else none
  else none

/-- The offset, the end and the length of the suffix, each `-1` if it is not given. -/
structure ByteRange where
  rangeOffset : ℤ
  rangeEnd : ℤ
  rangeSuffixLength : ℤ
  deriving DecidableEq

def ascii (text : String) : List UInt16 := text.toList.map fun c => c.toNat.toUInt16

def bytesStart : List UInt16 := [0x62, 0x79, 0x74, 0x65, 0x73, 0x3D]

def parseRange (range : List UInt16) : Option ByteRange :=
  if (range.take 6).map tables.foldCase ≠ bytesStart.map tables.foldCase then none
  else
    let byteRange := range.drop 6
    if minusSign ∉ byteRange then none
    else
      let first := byteRange.takeWhile (· ≠ minusSign)
      let second := stripWhiteSpace tables (byteRange.drop (first.length + 1))
      if first = [] then
        match toInt64Strict tables second with
        | some value => some ⟨-1, -1, value⟩
        | none => some ⟨-1, -1, -1⟩
      else
        match toInt64Strict tables (stripWhiteSpace tables first) with
        | none => none
        | some firstBytePos =>
          match (if second = [] then some (-1) else toInt64Strict tables second) with
          | none => none
          | some lastBytePos =>
            if firstBytePos < 0 ∨ ¬ (lastBytePos = -1 ∨ lastBytePos ≥ firstBytePos) then none
            else some ⟨firstBytePos, lastBytePos, -1⟩

inductive RangeForm where
  | fromTo (first last : ℕ)
  | onward (first : ℕ)
  | suffix (count : ℕ)
  deriving DecidableEq

def digitsValue (digits : List UInt16) : ℕ :=
  digits.foldl (fun value c => 10 * value + digitValue c) 0

structure IsNumber (text : List UInt16) (value : ℕ) : Prop where
  exists_digits : ∃ before sign digits after, text = before ++ (sign ++ digits) ++ after ∧
    (∀ c ∈ before ++ after, isSpaceOrNewline tables c = true) ∧ (sign = [] ∨ sign = [plusSign]) ∧
    digits ≠ [] ∧ (∀ c ∈ digits, isASCIIDigit c = true) ∧ digitsValue digits = value

/-- The texts of the three forms, behind the name of the unit. -/
inductive Denotes : List UInt16 → RangeForm → Prop
  | fromTo {unit first last : List UInt16} {a b : ℕ}
      (hunit : unit.map tables.foldCase = bytesStart.map tables.foldCase)
      (hfirst : IsNumber tables first a) (hlast : IsNumber tables last b) :
      Denotes (unit ++ (first ++ minusSign :: last)) (.fromTo a b)
  | onward {unit first blank : List UInt16} {a : ℕ}
      (hunit : unit.map tables.foldCase = bytesStart.map tables.foldCase)
      (hfirst : IsNumber tables first a) (hblank : ∀ c ∈ blank, isSpaceOrNewline tables c = true) :
      Denotes (unit ++ (first ++ minusSign :: blank)) (.onward a)
  | suffix {unit count : List UInt16} {n : ℕ}
      (hunit : unit.map tables.foldCase = bytesStart.map tables.foldCase)
      (hcount : IsNumber tables count n) : Denotes (unit ++ minusSign :: count) (.suffix n)

/-- The range of a form. A number of positions at the end that is too large counts as none. -/
def RangeForm.range : RangeForm → ByteRange
  | .fromTo first last => ⟨first, last, -1⟩
  | .onward first => ⟨first, -1, -1⟩
  | .suffix count => ⟨-1, -1, if count < 2 ^ 63 then count else -1⟩

def RangeForm.Accepted : RangeForm → Prop
  | .fromTo first last => first ≤ last ∧ last < 2 ^ 63
  | .onward first => first < 2 ^ 63
  | .suffix _ => True

section Numbers

variable {tables} {c : UInt16} {neg : Bool} {text before after digits : List UInt16} {value : ℕ}

theorem not_space_of_digit (h : isASCIIDigit c) : isSpaceOrNewline tables c = false := by
  have hdigit := of_decide_eq_true h
  rw [isSpaceOrNewline, if_pos (by omega), isASCIISpace, decide_eq_false_iff_not]
  omega

theorem ne_minusSign_of_digit (h : isASCIIDigit c) : c ≠ minusSign := by
  rintro rfl
  exact absurd h (by decide)

theorem ne_plusSign_of_digit (h : isASCIIDigit c) : c ≠ plusSign := by
  rintro rfl
  exact absurd h (by decide)

theorem digitValue_lt (h : isASCIIDigit c) : digitValue c < 10 := by
  have hdigit := of_decide_eq_true h
  rw [digitValue]
  omega

@[simp]
theorem digitsValue_append_singleton : digitsValue (digits ++ [c]) =
    10 * digitsValue digits + digitValue c := by
  rw [digitsValue, foldl_append]
  rfl

theorem digitsValue_le_append (digits more : List UInt16) :
    digitsValue digits ≤ digitsValue (digits ++ more) := by
  induction more using List.reverseRecOn with
  | nil => rw [append_nil]
  | append_singleton more c ih =>
    rw [← append_assoc, digitsValue_append_singleton]
    omega

theorem bmod_eq_self {value : ℤ} (hlow : -2 ^ 63 ≤ value) (hhigh : value < 2 ^ 63) :
    value.bmod (2 ^ 64) = value := by
  rw [Int.bmod_def]
  omega

/-- A digit is taken in unless the number becomes too large. -/
theorem readDigits_cons (hc : isASCIIDigit c) :
    readDigits neg (digitsValue digits) (c :: text) =
      if digitsValue (digits ++ [c]) < 2 ^ 63 + neg.toNat then
        readDigits neg ((digitsValue (digits ++ [c]) : ℤ).bmod (2 ^ 64)) text
      else none := by
  have hlt := digitValue_lt hc
  have hbit := neg.toNat_le
  have hmax : integralMax / 10 = 922337203685477580 := rfl
  have hmax' : integralMax % 10 = 7 := rfl
  rw [readDigits, if_pos hc, digitsValue_append_singleton]
  by_cases hlarge : 10 * digitsValue digits + digitValue c < 2 ^ 63 + neg.toNat
  · rw [if_pos hlarge, if_neg (by omega)]
    push_cast
    rfl
  · rw [if_neg hlarge, if_pos (by omega)]

/-- Digits that fit are taken in one after the other. -/
theorem readDigits_append {more : List UInt16} (hmore : ∀ c ∈ more, isASCIIDigit c)
    (hsmall : digitsValue (digits ++ more) < 2 ^ 63) :
    readDigits neg (digitsValue digits) (more ++ text) =
      readDigits neg (digitsValue (digits ++ more)) text := by
  induction more generalizing digits with
  | nil => rw [append_nil, nil_append]
  | cons c more ih =>
    obtain ⟨hc, hmore⟩ := forall_mem_cons.mp hmore
    rw [append_cons] at hsmall ⊢
    have hone := (digitsValue_le_append _ _).trans_lt hsmall
    rw [cons_append, readDigits_cons hc, if_pos (hone.trans_le (Nat.le_add_right _ _)),
      bmod_eq_self (by omega) (by exact_mod_cast hone), ih hmore hsmall]

/-- Digits that do not fit are refused. -/
theorem readDigits_large {more : List UInt16} (hmore : ∀ c ∈ more, isASCIIDigit c)
    (hsmall : digitsValue digits < 2 ^ 63) (hlarge : 2 ^ 63 ≤ digitsValue (digits ++ more)) :
    readDigits false (digitsValue digits) (more ++ text) = none := by
  induction more generalizing digits with
  | nil =>
    rw [append_nil] at hlarge
    omega
  | cons c more ih =>
    obtain ⟨hc, hmore⟩ := forall_mem_cons.mp hmore
    rw [cons_append, readDigits_cons hc]
    split_ifs with hone
    · rw [append_cons] at hlarge
      rw [bmod_eq_self (by omega) (by exact_mod_cast hone), ih hmore hone hlarge]
    · rfl

/-- Behind a minus sign reading begins again at the digit behind digits of the value two to the 63. -/
theorem readDigits_restart (hc : isASCIIDigit c) :
    readDigits true (-2 ^ 63) (c :: text) = readDigits true 0 (c :: text) := by
  have hlt := digitValue_lt hc
  have hmax : integralMax / 10 = 922337203685477580 := rfl
  have hwrap : (10 * -2 ^ 63 + (digitValue c : ℤ)).bmod (2 ^ 64) =
      (10 * 0 + (digitValue c : ℤ)).bmod (2 ^ 64) := by
    rw [Int.bmod_def, Int.bmod_def]
    omega
  rw [readDigits, readDigits, if_pos hc, if_pos hc, if_neg (by omega), if_neg (by omega), hwrap]

theorem dropWhile_append_eq {p : UInt16 → Bool} {rest : List UInt16}
    (hbefore : ∀ c ∈ before, p c) (hrest : ∀ c ∈ rest.head?, p c = false) :
    (before ++ rest).dropWhile p = rest := by
  rw [dropWhile_append_of_pos hbefore]
  cases rest with
  | nil => rfl
  | cons c rest => rw [dropWhile_cons_of_neg (by rw [hrest c rfl]; exact nofun)]

/-- White space around a text that neither begins nor ends with it is stripped. -/
theorem stripWhiteSpace_eq {core : List UInt16}
    (hspace : ∀ c ∈ before ++ after, isSpaceOrNewline tables c)
    (hhead : ∀ c ∈ core.head?, isSpaceOrNewline tables c = false)
    (hlast : ∀ c ∈ core.getLast?, isSpaceOrNewline tables c = false) (hne : core ≠ []) :
    stripWhiteSpace tables (before ++ core ++ after) = core := by
  have hfront : (before ++ core ++ after).dropWhile (isSpaceOrNewline tables) = core ++ after := by
    rw [append_assoc]
    apply dropWhile_append_eq fun c hc => hspace c (mem_append_left _ hc)
    intro c hc
    rw [head?_append_of_ne_nil _ hne] at hc
    exact hhead c hc
  have hback : (core ++ after).reverse.dropWhile (isSpaceOrNewline tables) = core.reverse := by
    rw [reverse_append]
    apply dropWhile_append_eq
    · intro c hc
      exact hspace c (mem_append_right _ (mem_reverse.mp hc))
    · intro c hc
      rw [head?_reverse] at hc
      exact hlast c hc
  rw [stripWhiteSpace, hfront, hback, reverse_reverse]

theorem stripWhiteSpace_blank {blank : List UInt16}
    (hblank : ∀ c ∈ blank, isSpaceOrNewline tables c) : stripWhiteSpace tables blank = [] := by
  have hempty : blank.dropWhile (isSpaceOrNewline tables) = [] := by
    have hdrop : (blank ++ []).dropWhile (isSpaceOrNewline tables) = [] :=
      dropWhile_append_eq hblank fun c hc => absurd hc (by simp)
    rw [append_nil] at hdrop
    exact hdrop
  rw [stripWhiteSpace, hempty]
  rfl

def IsSign (isNegative : Bool) (sign : List UInt16) : Prop :=
  if isNegative then sign = [minusSign] else sign = [] ∨ sign = [plusSign]

/-- Behind a minus sign digits of the value two to the 63 may stand in front of those that count. -/
def Passes (isNegative : Bool) (passes : List (List UInt16)) : Prop :=
  ∀ pass ∈ passes, isNegative ∧ (∀ c ∈ pass, isASCIIDigit c) ∧ digitsValue pass = 2 ^ 63

def Spells (tables : CharacterTables) (isNegative : Bool) (text : List UInt16) (value : ℕ) : Prop :=
  ∃ before sign passes digits after, text = before ++ (sign ++ (passes.flatten ++ digits)) ++ after ∧
    (∀ c ∈ before ++ after, isSpaceOrNewline tables c) ∧ IsSign isNegative sign ∧
    Passes isNegative passes ∧ digits ≠ [] ∧ (∀ c ∈ digits, isASCIIDigit c) ∧
    digitsValue digits = value

theorem passes_nil : Passes neg [] := fun _ hpass => absurd hpass not_mem_nil

theorem Passes.forall_digit {passes : List (List UInt16)} (h : Passes neg passes)
    (hdigits : ∀ c ∈ digits, isASCIIDigit c) : ∀ c ∈ passes.flatten ++ digits, isASCIIDigit c := by
  intro c hc
  rcases mem_append.mp hc with hmem | hmem
  · obtain ⟨pass, hpass, hin⟩ := mem_flatten.mp hmem
    exact (h pass hpass).2.1 c hin
  · exact hdigits c hmem

theorem spells_false_iff : Spells tables false text value ↔ IsNumber tables text value := by
  constructor
  · rintro ⟨before, sign, passes, digits, after, rfl, hspace, hsign, hpasses, hdigits⟩
    have hnone : passes = [] :=
      eq_nil_iff_forall_not_mem.mpr fun pass hpass => absurd (hpasses pass hpass).1 (by simp)
    subst hnone
    exact ⟨before, sign, digits, after, rfl, hspace, hsign, hdigits⟩
  · rintro ⟨before, sign, digits, after, rfl, hspace, hsign, hdigits⟩
    exact ⟨before, sign, [], digits, after, rfl, hspace, hsign, passes_nil, hdigits⟩

theorem readDigits_pass {pass : List UInt16} (hpass : ∀ c ∈ pass, isASCIIDigit c)
    (hval : digitsValue pass = 2 ^ 63) (hc : isASCIIDigit c) :
    readDigits true 0 (pass ++ c :: text) = readDigits true 0 (c :: text) := by
  obtain rfl | ⟨front, last, rfl⟩ := pass.eq_nil_or_concat'
  · cases hval
  · have hfront : ∀ c ∈ front, isASCIIDigit c := fun c hmem => hpass c (mem_append_left _ hmem)
    have hlast := hpass last (mem_append_right _ mem_cons_self)
    have hless : digitsValue front < 2 ^ 63 := by
      rw [digitsValue_append_singleton] at hval
      omega
    have hread := @readDigits_append true (last :: c :: text) [] front hfront hless
    rw [nil_append, readDigits_cons hlast, hval, if_pos (by decide)] at hread
    rw [append_assoc, singleton_append]
    exact hread.trans (readDigits_restart hc)

theorem readDigits_passes {passes : List (List UInt16)} (h : Passes neg passes) (hne : digits ≠ [])
    (hdigits : ∀ c ∈ digits, isASCIIDigit c) :
    readDigits neg 0 (passes.flatten ++ digits) = readDigits neg 0 digits := by
  induction passes with
  | nil => rfl
  | cons pass passes ih =>
    obtain ⟨⟨rfl, hpass, hval⟩, hrest⟩ := forall_mem_cons.mp h
    obtain ⟨c, rest, heq⟩ := exists_cons_of_ne_nil (append_ne_nil_of_right_ne_nil passes.flatten hne)
    have hc : isASCIIDigit c := Passes.forall_digit hrest hdigits c (heq ▸ mem_cons_self)
    rw [← ih hrest, flatten_cons, append_assoc, heq, readDigits_pass hpass hval hc]

/-- Behind its sign a number is read from its digits. -/
theorem toInt64Strict_digits {sign : List UInt16} (hsign : IsSign neg sign) (hne : digits ≠ [])
    (hdigits : ∀ c ∈ digits, isASCIIDigit c) :
    toInt64Strict tables (sign ++ digits) = (readDigits neg 0 digits).bind fun read =>
      if read.2.dropWhile (isSpaceOrNewline tables) = [] then
        some (if neg then (-read.1).bmod (2 ^ 64) else read.1) else none := by
  obtain ⟨first, rest, rfl⟩ := exists_cons_of_ne_nil hne
  have hfst := hdigits first mem_cons_self
  have hread : readSign ((sign ++ first :: rest).dropWhile (isSpaceOrNewline tables)) =
      (neg, first :: rest) := by
    cases neg with
    | true =>
      obtain rfl : sign = [minusSign] := hsign
      rfl
    | false =>
      rcases hsign with rfl | rfl
      · rw [nil_append, dropWhile_cons_of_neg
          (by rw [not_space_of_digit hfst]; exact nofun), readSign,
          if_neg (ne_minusSign_of_digit hfst), if_neg (ne_plusSign_of_digit hfst)]
      · rfl
  rw [toInt64Strict, hread]
  dsimp only
  rw [if_pos (show (first :: rest).head?.any isASCIIDigit = true from hfst)]
  cases readDigits neg 0 (first :: rest) <;> rfl

theorem toInt64Strict_small {sign : List UInt16} {passes : List (List UInt16)} (hsign : IsSign neg sign)
    (hpasses : Passes neg passes) (hne : digits ≠ []) (hdigits : ∀ c ∈ digits, isASCIIDigit c)
    (hsmall : digitsValue digits < 2 ^ 63) :
    toInt64Strict tables (sign ++ (passes.flatten ++ digits)) =
      some (if neg then -(digitsValue digits : ℤ) else digitsValue digits) := by
  have hread := @readDigits_append neg [] [] digits hdigits hsmall
  rw [append_nil, nil_append] at hread
  rw [toInt64Strict_digits hsign (append_ne_nil_of_right_ne_nil _ hne) (hpasses.forall_digit hdigits),
    readDigits_passes hpasses hne hdigits]
  refine (congrArg (Option.bind · _) hread).trans ?_
  rw [readDigits, Option.bind_some, dropWhile_nil, if_pos rfl, bmod_eq_self (by omega) (by omega)]

theorem toInt64Strict_large {sign : List UInt16} (hsign : IsSign false sign) (hne : digits ≠ [])
    (hdigits : ∀ c ∈ digits, isASCIIDigit c) (hlarge : 2 ^ 63 ≤ digitsValue digits) :
    toInt64Strict tables (sign ++ digits) = none := by
  have hread := @readDigits_large [] [] digits hdigits (by decide) hlarge
  rw [append_nil] at hread
  rw [toInt64Strict_digits hsign hne hdigits]
  exact congrArg (Option.bind · _) hread

/-- White space around a sign and digits is stripped. -/
theorem stripWhiteSpace_digits {sign : List UInt16}
    (hspace : ∀ c ∈ before ++ after, isSpaceOrNewline tables c) (hsign : IsSign neg sign)
    (hne : digits ≠ []) (hdigits : ∀ c ∈ digits, isASCIIDigit c) :
    stripWhiteSpace tables (before ++ (sign ++ digits) ++ after) = sign ++ digits := by
  have hcore : ∀ c ∈ sign ++ digits, isSpaceOrNewline tables c = false := by
    intro c hc
    rcases mem_append.mp hc with hmem | hmem
    · cases neg with
      | true =>
        obtain rfl : sign = [minusSign] := hsign
        rw [mem_singleton.mp hmem]
        rfl
      | false =>
        rcases hsign with rfl | rfl
        · cases hmem
        · rw [mem_singleton.mp hmem]
          rfl
    · exact not_space_of_digit (hdigits c hmem)
  apply stripWhiteSpace_eq hspace _ _ (append_ne_nil_of_right_ne_nil _ hne)
  · exact fun c hc => hcore c (mem_of_mem_head? hc)
  · exact fun c hc => hcore c (mem_of_mem_getLast? hc)

theorem Spells.strip (h : Spells tables neg text value) (hsmall : value < 2 ^ 63) :
    stripWhiteSpace tables text ≠ [] ∧ toInt64Strict tables (stripWhiteSpace tables text) =
      some (if neg then -(value : ℤ) else value) := by
  obtain ⟨before, sign, passes, digits, after, rfl, hspace, hsign, hpasses, hne, hdigits, rfl⟩ := h
  have hall := hpasses.forall_digit hdigits
  have hallNe := append_ne_nil_of_right_ne_nil passes.flatten hne
  rw [stripWhiteSpace_digits hspace hsign hallNe hall]
  exact ⟨append_ne_nil_of_right_ne_nil _ hallNe, toInt64Strict_small hsign hpasses hne hdigits hsmall⟩

theorem exists_strip (text : List UInt16) : ∃ before after,
    text = before ++ stripWhiteSpace tables text ++ after ∧
      ∀ c ∈ before ++ after, isSpaceOrNewline tables c := by
  refine ⟨text.takeWhile (isSpaceOrNewline tables), ((text.dropWhile (isSpaceOrNewline tables)).reverse.takeWhile
    (isSpaceOrNewline tables)).reverse, ?_, fun c hc => ?_⟩
  · rw [stripWhiteSpace, append_assoc, ← reverse_append, takeWhile_append_dropWhile, reverse_reverse,
      takeWhile_append_dropWhile]
  · rcases mem_append.mp hc with hmem | hmem
    · exact mem_takeWhile_imp hmem
    · exact mem_takeWhile_imp (mem_reverse.mp hmem)

theorem exists_readSign (text : List UInt16) :
    ∃ sign, text = sign ++ (readSign text).2 ∧ IsSign (readSign text).1 sign := by
  unfold readSign
  split
  · exact ⟨[], rfl, .inl rfl⟩
  · split_ifs with hminus hplus
    · exact ⟨[minusSign], by rw [hminus]; rfl, rfl⟩
    · exact ⟨[plusSign], by rw [hplus]; rfl, .inr rfl⟩
    · exact ⟨[], rfl, .inl rfl⟩

/-- A text of digits, of which some are passed over and the others read, with a rest behind it. -/
def Reads (isNegative : Bool) (text rest : List UInt16) (value : ℤ) : Prop :=
  ∃ passes digits, text = passes.flatten ++ digits ++ rest ∧ Passes isNegative passes ∧
    digits ≠ [] ∧ (∀ c ∈ digits, isASCIIDigit c) ∧ digitsValue digits < 2 ^ 63 + isNegative.toNat ∧
    value = (digitsValue digits : ℤ).bmod (2 ^ 64)

theorem reads_of_readDigits_stop {value : ℤ} {rest : List UInt16} (hne : digits ≠ [])
    (hdigits : ∀ c ∈ digits, isASCIIDigit c) (hfits : digitsValue digits < 2 ^ 63 + neg.toNat)
    (hstop : ∀ c ∈ text.head?, isASCIIDigit c = false)
    (h : readDigits neg ((digitsValue digits : ℤ).bmod (2 ^ 64)) text = some (value, rest)) :
    Reads neg (digits ++ text) rest value := by
  have hread : readDigits neg ((digitsValue digits : ℤ).bmod (2 ^ 64)) text =
      some ((digitsValue digits : ℤ).bmod (2 ^ 64), text) := by
    cases text with
    | nil => rw [readDigits]
    | cons c text => rw [readDigits, if_neg (by rw [hstop c rfl]; exact Bool.false_ne_true)]
  obtain ⟨rfl, rfl⟩ := Prod.mk.inj (Option.some.inj (hread.symm.trans h))
  exact ⟨[], digits, rfl, passes_nil, hne, hdigits, hfits, rfl⟩

/-- The digits read before and those of the text are passed over in part, and the others read. -/
theorem reads_of_readDigits {value : ℤ} {rest : List UInt16} (hdigits : ∀ c ∈ digits, isASCIIDigit c)
    (hsmall : digitsValue digits < 2 ^ 63) (hhead : digits ≠ [] ∨ text.head?.any isASCIIDigit)
    (h : readDigits neg (digitsValue digits) text = some (value, rest)) :
    Reads neg (digits ++ text) rest value := by
  induction text generalizing digits with
  | nil =>
    rw [← @bmod_eq_self (digitsValue digits) (by omega) (by omega)] at h
    exact reads_of_readDigits_stop (hhead.resolve_right (by simp)) hdigits (by omega) (by simp) h
  | cons c text ih =>
    by_cases hc : isASCIIDigit c
    · have hmore : ∀ c' ∈ digits ++ [c], isASCIIDigit c' := forall_mem_append.mpr ⟨hdigits, by simpa⟩
      rw [readDigits_cons hc, Option.ite_none_right_eq_some] at h
      obtain ⟨hfits, h⟩ := h
      rw [append_cons]
      by_cases hless : digitsValue (digits ++ [c]) < 2 ^ 63
      · rw [bmod_eq_self (by omega) (by omega)] at h
        exact ih hmore hless (.inl (by simp)) h
      by_cases hnext : ∃ next ∈ text.head?, isASCIIDigit next
      · obtain ⟨next, hmem, hdigit⟩ := hnext
        obtain ⟨text, rfl⟩ := head?_eq_some_iff.mp hmem
        have hneg : neg = true := by
          cases neg with
          | true => rfl
          | false => exact absurd hfits hless
        subst hneg
        have hval : digitsValue (digits ++ [c]) = 2 ^ 63 := by
          rw [Bool.toNat_true] at hfits
          omega
        rw [hval] at h
        obtain ⟨passes, counted, heq, hpasses, hread⟩ := @ih [] (fun c' hc' => absurd hc' not_mem_nil)
          (by decide) (.inr hdigit) ((readDigits_restart hdigit).symm.trans h)
        refine ⟨(digits ++ [c]) :: passes, counted, ?_,
          forall_mem_cons.mpr ⟨⟨rfl, hmore, hval⟩, hpasses⟩, hread⟩
        rw [flatten_cons, append_assoc _ passes.flatten, append_assoc _ (passes.flatten ++ counted), ← heq,
          nil_append]
      · refine reads_of_readDigits_stop (by simp) hmore hfits (fun next hmem => ?_) h
        exact Bool.eq_false_iff.mpr fun hdigit => hnext ⟨next, hmem, hdigit⟩
    · rw [← @bmod_eq_self (digitsValue digits) (by omega) (by omega)] at h
      refine reads_of_readDigits_stop (hhead.resolve_right hc) hdigits (by omega) (fun c' hmem => ?_) h
      cases hmem
      exact Bool.eq_false_iff.mpr hc

theorem signed_bmod {n : ℕ} (h : n < 2 ^ 63 + neg.toNat) :
    (if neg then (-(n : ℤ).bmod (2 ^ 64)).bmod (2 ^ 64) else (n : ℤ).bmod (2 ^ 64)) =
      if neg then -(n : ℤ) else n := by
  cases neg with
  | false =>
    rw [if_neg Bool.false_ne_true, if_neg Bool.false_ne_true]
    exact bmod_eq_self (by omega) (by exact_mod_cast h)
  | true =>
    rw [if_pos rfl, if_pos rfl, Int.bmod_neg_bmod]
    rw [Bool.toNat_true] at h
    exact bmod_eq_self (by omega) (by omega)

/-- What is read from a text without its white space is the number that the text spells. -/
theorem spells_of_toInt64Strict {value : ℤ}
    (h : toInt64Strict tables (stripWhiteSpace tables text) = some value) :
    ∃ neg n, Spells tables neg text n ∧ n < 2 ^ 63 + neg.toNat ∧
      value = if neg then -(n : ℤ) else n := by
  obtain ⟨before, after, heq, hspace⟩ := @exists_strip tables text
  generalize stripWhiteSpace tables text = core at h heq
  obtain ⟨sign, hsplit, hsign⟩ := exists_readSign (core.dropWhile (isSpaceOrNewline tables))
  rw [toInt64Strict] at h
  generalize readSign (core.dropWhile (isSpaceOrNewline tables)) = signed at h hsplit hsign
  obtain ⟨neg, digits⟩ := signed
  rw [Option.ite_none_right_eq_some] at h
  obtain ⟨hdigit, h⟩ := h
  cases hread : readDigits neg 0 digits with
  | none =>
    rw [hread] at h
    cases h
  | some read =>
    obtain ⟨accumulator, rest⟩ := read
    rw [hread] at h
    dsimp only at h
    rw [Option.ite_none_right_eq_some, dropWhile_eq_nil_iff] at h
    obtain ⟨hblank, h⟩ := h
    obtain ⟨passes, counted, hparts, hpasses, hne, hcounted, hfits, hval⟩ :=
      @reads_of_readDigits neg digits [] accumulator rest (fun c hc => absurd hc not_mem_nil)
        (by decide) (.inr hdigit) hread
    refine ⟨neg, _, ⟨before ++ core.takeWhile (isSpaceOrNewline tables), sign, passes, counted,
      rest ++ after, ?_, ?_, hsign, hpasses, hne, hcounted, rfl⟩, hfits, ?_⟩
    · have hcore : core.takeWhile (isSpaceOrNewline tables) ++
          (sign ++ (passes.flatten ++ counted ++ rest)) = core := by
        rw [← hparts, nil_append, ← hsplit, takeWhile_append_dropWhile]
      rw [heq]
      nth_rewrite 1 [← hcore]
      simp only [append_assoc]
    · intro c hc
      simp only [mem_append] at hc hspace
      rcases hc with (hc | hc) | hc | hc
      · exact hspace c (.inl hc)
      · exact mem_takeWhile_imp hc
      · exact hblank c hc
      · exact hspace c (.inr hc)
    · rw [← Option.some.inj h, hval, signed_bmod hfits]

theorem IsNumber.strip (h : IsNumber tables text value) :
    minusSign ∉ text ∧ stripWhiteSpace tables text ≠ [] ∧
      toInt64Strict tables (stripWhiteSpace tables text) =
        if value < 2 ^ 63 then some (value : ℤ) else none := by
  obtain ⟨before, sign, digits, after, rfl, hspace, hsign, hne, hdigits, rfl⟩ := h.exists_digits
  rw [stripWhiteSpace_digits hspace (show IsSign false sign from hsign) hne hdigits]
  refine ⟨fun hmem => ?_, append_ne_nil_of_right_ne_nil _ hne, ?_⟩
  · rw [append_assoc, mem_append, mem_append, mem_append] at hmem
    rcases hmem with hmem | (hmem | hmem) | hmem
    · exact absurd (hspace _ (mem_append_left _ hmem)) nofun
    · rcases hsign with rfl | rfl
      · cases hmem
      · exact absurd (mem_singleton.mp hmem) (by decide)
    · exact ne_minusSign_of_digit (hdigits _ hmem) rfl
    · exact absurd (hspace _ (mem_append_right _ hmem)) nofun
  · split_ifs with hsmall
    · exact @toInt64Strict_small tables false digits sign [] hsign passes_nil hne hdigits hsmall
    · exact toInt64Strict_large hsign hne hdigits (not_lt.mp hsmall)

theorem IsNumber.ne_nil (h : IsNumber tables text value) : text ≠ [] := by
  rintro rfl
  exact h.strip.2.1 rfl

end Numbers

section Headers

variable {tables} {unit first second header : List UInt16} {form : RangeForm}

theorem takeWhile_split (hfst : minusSign ∉ first) :
    (first ++ minusSign :: second).takeWhile (· ≠ minusSign) = first := by
  rw [takeWhile_append_of_pos, takeWhile_cons_of_neg (by simp), append_nil]
  intro c hc
  exact decide_eq_true fun hminus => hfst (hminus ▸ hc)

section

variable (hunit : unit.map tables.foldCase = bytesStart.map tables.foldCase)

include hunit

theorem length_unit : unit.length = 6 := by
  have hmap := congrArg length hunit
  rw [length_map, length_map] at hmap
  exact hmap

variable (hfst : minusSign ∉ first)

include hfst

/-- Splitting a header behind its unit at the first minus sign. -/
theorem parseRange_split :
    parseRange tables (unit ++ (first ++ minusSign :: second)) =
      if first = [] then
        match toInt64Strict tables (stripWhiteSpace tables second) with
        | some value => some ⟨-1, -1, value⟩
        | none => some ⟨-1, -1, -1⟩
      else
        match toInt64Strict tables (stripWhiteSpace tables first) with
        | none => none
        | some firstBytePos =>
          match (if stripWhiteSpace tables second = [] then some (-1)
            else toInt64Strict tables (stripWhiteSpace tables second)) with
          | none => none
          | some lastBytePos =>
            if firstBytePos < 0 ∨ ¬ (lastBytePos = -1 ∨ lastBytePos ≥ firstBytePos) then none
            else some ⟨firstBytePos, lastBytePos, -1⟩ := by
  have hlen := length_unit hunit
  have htake : (unit ++ (first ++ minusSign :: second)).take 6 = unit := take_left' hlen
  have hdrop : (unit ++ (first ++ minusSign :: second)).drop 6 = first ++ minusSign :: second :=
    drop_left' hlen
  have hwhile := @takeWhile_split first second hfst
  have hbehind : (first ++ minusSign :: second).drop (first.length + 1) = second := by
    rw [← drop_drop, drop_left]
    rfl
  rw [parseRange, htake, if_neg (not_not.mpr hunit), hdrop]
  dsimp only
  rw [if_neg (not_not.mpr (by simp)), hwhile, hbehind]

/-- The parts of a header are determined by it. -/
theorem split_inj {unit' first' second' : List UInt16}
    (hunit' : unit'.map tables.foldCase = bytesStart.map tables.foldCase) (hfst' : minusSign ∉ first')
    (heq : unit ++ (first ++ minusSign :: second) = unit' ++ (first' ++ minusSign :: second')) :
    first = first' ∧ second = second' := by
  have hrest := (append_inj heq ((length_unit hunit).trans (length_unit hunit').symm)).2
  have hsame := congrArg (takeWhile (· ≠ minusSign)) hrest
  rw [takeWhile_split hfst, takeWhile_split hfst'] at hsame
  subst hsame
  exact ⟨rfl, (cons.inj (append_cancel_left hrest)).2⟩

def RangeForm.Parts (tables : CharacterTables) (first second : List UInt16) : RangeForm → Prop
  | .fromTo a b => IsNumber tables first a ∧ IsNumber tables second b
  | .onward a => IsNumber tables first a ∧ ∀ c ∈ second, isSpaceOrNewline tables c
  | .suffix n => first = [] ∧ IsNumber tables second n

theorem denotes_split_iff :
    Denotes tables (unit ++ (first ++ minusSign :: second)) form ↔ form.Parts tables first second := by
  constructor
  · intro h
    generalize hheader : unit ++ (first ++ minusSign :: second) = header at h
    cases h with
    | fromTo hunit' hfst' hlast =>
      obtain ⟨rfl, rfl⟩ := split_inj hunit hfst hunit' hfst'.strip.1 hheader
      exact ⟨hfst', hlast⟩
    | onward hunit' hfst' hblank =>
      obtain ⟨rfl, rfl⟩ := split_inj hunit hfst hunit' hfst'.strip.1 hheader
      exact ⟨hfst', hblank⟩
    | suffix hunit' hcnt =>
      obtain ⟨rfl, rfl⟩ := @split_inj tables _ _ _ hunit hfst _ [] _ hunit' not_mem_nil hheader
      exact ⟨rfl, hcnt⟩
  · intro h
    cases form with
    | fromTo a b => exact .fromTo hunit h.1 h.2
    | onward a => exact .onward hunit h.1 h.2
    | suffix n =>
      obtain ⟨rfl, hcnt⟩ := h
      exact .suffix hunit hcnt

end

/-- A header of one of the three forms is read as that form, or refused. -/
theorem parseRange_cases (h : Denotes tables header form) :
    parseRange tables header = some form.range ∧ form.Accepted ∨
      parseRange tables header = none ∧ ¬form.Accepted := by
  cases h with
  | @fromTo unit first last a b hunit hfst hlast =>
    obtain ⟨hminus, -, hfstVal⟩ := hfst.strip
    obtain ⟨-, hlastNe, hlastValue⟩ := hlast.strip
    rw [parseRange_split hunit hminus, if_neg hfst.ne_nil, hfstVal, if_neg hlastNe, hlastValue,
      RangeForm.Accepted]
    by_cases ha : a < 2 ^ 63
    · by_cases hb : b < 2 ^ 63
      · rw [if_pos ha, if_pos hb]
        dsimp only
        by_cases hle : a ≤ b
        · rw [if_neg (by omega)]
          exact .inl ⟨rfl, hle, hb⟩
        · rw [if_pos (by omega)]
          exact .inr ⟨rfl, fun h => hle h.1⟩
      · rw [if_pos ha, if_neg hb]
        exact .inr ⟨rfl, fun h => hb h.2⟩
    · rw [if_neg ha]
      exact .inr ⟨rfl, by omega⟩
  | @onward unit first blank a hunit hfst hblank =>
    obtain ⟨hminus, -, hfstVal⟩ := hfst.strip
    rw [parseRange_split hunit hminus, if_neg hfst.ne_nil, hfstVal, if_pos (stripWhiteSpace_blank hblank)]
    by_cases ha : a < 2 ^ 63
    · rw [if_pos ha]
      dsimp only
      rw [if_neg (by omega)]
      exact .inl ⟨rfl, ha⟩
    · rw [if_neg ha]
      exact .inr ⟨rfl, ha⟩
  | @suffix unit count n hunit hcnt =>
    obtain ⟨-, -, hval⟩ := hcnt.strip
    have hsplit := @parseRange_split tables unit [] count hunit not_mem_nil
    rw [nil_append, if_pos rfl, hval] at hsplit
    rw [hsplit, RangeForm.range]
    refine .inl ⟨?_, trivial⟩
    by_cases hn : n < 2 ^ 63
    · rw [if_pos hn, if_pos hn]
    · rw [if_neg hn, if_neg hn]

end Headers

/-- The forms with numbers of 64 bits in which no position comes before the first one. -/
def RangeForm.Valid : RangeForm → Prop
  | .fromTo first last => first ≤ last ∧ last < 2 ^ 63
  | .onward first => first < 2 ^ 63
  | .suffix count => count < 2 ^ 63

/-- The headers of none of the forms that are accepted: what is behind a minus sign at the front is no
number, or the last position is read as minus one, or as minus zero. -/
inductive Misread : List UInt16 → Prop
  | suffix {unit count : List UInt16} (hunit : unit.map tables.foldCase = bytesStart.map tables.foldCase)
      (hcount : ∀ n < 2 ^ 63, ¬IsNumber tables count n) : Misread (unit ++ ([] ++ minusSign :: count))
  | last {unit first last : List UInt16} {a b : ℕ}
      (hunit : unit.map tables.foldCase = bytesStart.map tables.foldCase)
      (hfirst : IsNumber tables first a) (ha : a < 2 ^ 63) (hlast : Spells tables true last b)
      (hb : b = 1 ∨ b = 0 ∧ a = 0) : Misread (unit ++ (first ++ minusSign :: last))

variable {tables}

theorem Spells.minusSign_mem {text : List UInt16} {n : ℕ} (h : Spells tables true text n) :
    minusSign ∈ text := by
  obtain ⟨before, sign, passes, digits, after, rfl, -, rfl, -⟩ := h
  simp

theorem exists_split_of_parseRange {header : List UInt16} {range : ByteRange}
    (h : parseRange tables header = some range) : ∃ unit first second,
      unit.map tables.foldCase = bytesStart.map tables.foldCase ∧ minusSign ∉ first ∧
        header = unit ++ (first ++ minusSign :: second) := by
  rw [parseRange] at h
  by_cases hunit : (header.take 6).map tables.foldCase = bytesStart.map tables.foldCase
  · rw [if_neg (not_not.mpr hunit)] at h
    by_cases hminus : minusSign ∈ header.drop 6
    · obtain ⟨first, second, hsplit, hfst⟩ := eq_append_cons_of_mem hminus
      exact ⟨header.take 6, first, second, hunit, hfst, by rw [← hsplit, take_append_drop]⟩
    · rw [if_pos hminus] at h
      cases h
  · rw [if_pos hunit] at h
    cases h

/-- What the part behind the minus sign is read as, with a number in front of it. -/
theorem exists_form_of_last {first second : List UInt16} {a : ℕ} {range : ByteRange}
    (hnum : IsNumber tables first a) (ha : a < 2 ^ 63)
    (hread : ∀ b, Spells tables true second b → ¬(b = 1 ∨ b = 0 ∧ a = 0))
    (h : (match (if stripWhiteSpace tables second = [] then some (-1)
        else toInt64Strict tables (stripWhiteSpace tables second)) with
      | none => none
      | some lastBytePos =>
        if (a : ℤ) < 0 ∨ ¬ (lastBytePos = -1 ∨ lastBytePos ≥ a) then none
        else some (⟨a, lastBytePos, -1⟩ : ByteRange)) = some range) :
    ∃ form : RangeForm, form.Parts tables first second ∧ form.Valid ∧ form.range = range := by
  by_cases hblank : stripWhiteSpace tables second = []
  · rw [if_pos hblank] at h
    dsimp only at h
    rw [if_neg (by simp)] at h
    refine ⟨.onward a, ⟨hnum, fun c hc => ?_⟩, ha, Option.some.inj h⟩
    obtain ⟨before, after, heq, hspace⟩ := @exists_strip tables second
    rw [hblank, append_nil] at heq
    exact hspace c (heq ▸ hc)
  · rw [if_neg hblank] at h
    cases hpos : toInt64Strict tables (stripWhiteSpace tables second) with
    | none =>
      rw [hpos] at h
      cases h
    | some lastBytePos =>
      rw [hpos] at h
      obtain ⟨neg, b, hlast, hb, rfl⟩ := spells_of_toInt64Strict hpos
      cases neg with
      | true =>
        rw [if_pos rfl] at h
        dsimp only at h
        split_ifs at h with hbds
        exact absurd (by omega) (hread b hlast)
      | false =>
        rw [if_neg nofun] at h
        dsimp only at h
        by_cases hle : a ≤ b
        · rw [if_neg (by omega)] at h
          exact ⟨.fromTo a b, ⟨hnum, spells_false_iff.mp hlast⟩, ⟨hle, hb⟩, Option.some.inj h⟩
        · rw [if_pos (by omega)] at h
          cases h

/-- What is accepted and not misread has one of the forms. -/
theorem exists_form_of_parseRange {header : List UInt16} {range : ByteRange}
    (hread : ¬Misread tables header) (h : parseRange tables header = some range) :
    ∃ form, Denotes tables header form ∧ form.Valid ∧ form.range = range := by
  obtain ⟨unit, first, second, hunit, hfst, rfl⟩ := exists_split_of_parseRange h
  suffices hform : ∃ form : RangeForm, form.Parts tables first second ∧ form.Valid ∧ form.range = range by
    obtain ⟨form, hparts, hform⟩ := hform
    exact ⟨form, (denotes_split_iff hunit hfst).mpr hparts, hform⟩
  rw [parseRange_split hunit hfst] at h
  by_cases hempty : first = []
  · subst hempty
    obtain ⟨n, hn, hcnt⟩ : ∃ n < 2 ^ 63, IsNumber tables second n := by
      by_contra hnone
      exact hread (.suffix hunit fun n hn hcnt => hnone ⟨n, hn, hcnt⟩)
    rw [if_pos rfl, hcnt.strip.2.2, if_pos hn] at h
    exact ⟨.suffix n, ⟨rfl, hcnt⟩, hn, (congrArg _ (if_pos hn)).trans (Option.some.inj h)⟩
  · rw [if_neg hempty] at h
    cases hpos : toInt64Strict tables (stripWhiteSpace tables first) with
    | none =>
      rw [hpos] at h
      cases h
    | some firstBytePos =>
      rw [hpos] at h
      obtain ⟨neg, a, hspells, ha, rfl⟩ := spells_of_toInt64Strict hpos
      cases neg with
      | true => exact absurd hspells.minusSign_mem hfst
      | false =>
        have hnum := spells_false_iff.mp hspells
        rw [if_neg nofun] at h
        exact exists_form_of_last hnum ha (fun b hlast hb => hread (.last hunit hnum ha hlast hb)) h

/-- A header is accepted exactly when it has one of the forms, and is then read as that form, unless it
is misread. -/
theorem parseRange_iff (header : List UInt16) : (∀ range, parseRange tables header = some range ↔
      ∃ form, Denotes tables header form ∧ form.Valid ∧ form.range = range) ↔
        ¬Misread tables header := by
  constructor
  · intro h hmisread
    cases hmisread with
    | @suffix unit count hunit hcnt =>
      have hacc : ∃ range, parseRange tables (unit ++ ([] ++ minusSign :: count)) = some range := by
        rw [parseRange_split hunit not_mem_nil, if_pos rfl]
        split <;> exact ⟨_, rfl⟩
      obtain ⟨range, hrng⟩ := hacc
      obtain ⟨form, hden, hvalid, -⟩ := (h range).mp hrng
      rw [denotes_split_iff hunit not_mem_nil] at hden
      cases form with
      | fromTo a b => exact hden.1.ne_nil rfl
      | onward a => exact hden.1.ne_nil rfl
      | suffix n => exact hcnt n hvalid hden.2
    | @last unit first last a b hunit hfst ha hlast hb =>
      obtain ⟨hminus, -, hfstVal⟩ := hfst.strip
      have hacc : parseRange tables (unit ++ (first ++ minusSign :: last)) = some ⟨a, -b, -1⟩ := by
        obtain ⟨hlastNe, hlastVal⟩ := hlast.strip (by omega)
        rw [parseRange_split hunit hminus, if_neg hfst.ne_nil, hfstVal, if_pos ha, if_neg hlastNe, hlastVal]
        dsimp only
        rw [if_pos rfl, if_neg (by omega)]
      obtain ⟨form, hden, -⟩ := (h _).mp hacc
      rw [denotes_split_iff hunit hminus] at hden
      cases form with
      | fromTo a b => exact hden.2.strip.1 hlast.minusSign_mem
      | onward a => exact absurd (hden.2 _ hlast.minusSign_mem) nofun
      | suffix n => exact hfst.ne_nil hden.1
  · intro hread range
    refine ⟨exists_form_of_parseRange hread, ?_⟩
    rintro ⟨form, hden, hvalid, rfl⟩
    refine ((parseRange_cases hden).resolve_right fun hrefuse => hrefuse.2 ?_).1
    cases form with
    | fromTo a b => exact hvalid
    | onward a => exact hvalid
    | suffix n => trivial

example : parseRange asciiTables (ascii "bytes=5--92233720368547758081") = some ⟨5, -1, -1⟩ := by decide

/-- The header `bytes=-x` is accepted. -/
theorem parseRange_misread : ¬∀ range, parseRange asciiTables (bytesStart ++ [minusSign, 0x78]) =
    some range ↔ ∃ form, Denotes asciiTables (bytesStart ++ [minusSign, 0x78]) form ∧
      form.Valid ∧ form.range = range := by
  intro h
  obtain ⟨form, hden, hvalid, -⟩ := (h ⟨-1, -1, -1⟩).mp rfl
  rw [show [minusSign, 0x78] = [] ++ minusSign :: [0x78] from rfl, denotes_split_iff rfl not_mem_nil]
    at hden
  cases form with
  | fromTo a b => exact hden.1.ne_nil rfl
  | onward a => exact hden.1.ne_nil rfl
  | suffix n =>
    have hval := hden.2.strip.2.2
    rw [if_pos (show n < 2 ^ 63 from hvalid)] at hval
    cases hval

end WebKit.Network
