import WebKit.B3.ReduceStrength

/-!
The lowering of the divisions that never trap. A plain division is put behind blocks that find the
operands for which it is undefined, and a phi takes the result. On ARM64 the quotient is an
instruction, and only the remainder needs blocks.
-/

namespace WebKit.B3

open BitVec (intMin)

variable {w : Width}

inductive PlainDivision where
  | div
  | mod
  deriving DecidableEq, Repr

def PlainDivision.opcode : PlainDivision → BinaryOpcode
  | .div => .div
  | .mod => .mod

def PlainDivision.chillOpcode : PlainDivision → BinaryOpcode
  | .div => .chillDiv
  | .mod => .chillMod

inductive DivisionBlock where
  | before
  | normalDivCase
  | shadyDenCase
  | zeroDenCase
  | neg1DenCase
  | intMinCase
  | normalModCase
  deriving DecidableEq, Repr

inductive LoweredBlock (w : Width) where
  | branch {v : Width} (condition : Value v) (taken notTaken : DivisionBlock)
  | upsilon (result : Value w)

def makeDivisionChill (proc : Procedure) (nonChillOpcode : PlainDivision) (num den : Value w) :
    DivisionBlock → Option (LoweredBlock w) :=
  let one : Value w := .const (proc.newIndex 0) 1
  let isDenOK : Value .int32 :=
    .compare (proc.newIndex 2) .above (.binary (proc.newIndex 1) .add den one) one
  let badNumerator : Value w := .const (proc.newIndex 5) (intMin w.bits)
  let intMinResult := if nonChillOpcode = .div then badNumerator else .const (proc.newIndex 7) 0
  fun
    | .before => some (.branch isDenOK .normalDivCase .shadyDenCase)
    | .normalDivCase => some (.upsilon (.binary (proc.newIndex 3) nonChillOpcode.opcode num den))
    | .shadyDenCase => some (.branch den .neg1DenCase .zeroDenCase)
    | .zeroDenCase => some (.upsilon (.const (proc.newIndex 4) 0))
    | .neg1DenCase => some (.branch (.compare (proc.newIndex 6) .equal num badNumerator)
        .intMinCase .normalDivCase)
    | .intMinCase => some (.upsilon intMinResult)
    | .normalModCase => none

def makeModOnARM64 (proc : Procedure) (num den : Value w) : DivisionBlock → Option (LoweredBlock w)
  | .before => some (.branch den .normalModCase .zeroDenCase)
  | .normalModCase => some (.upsilon (.binary (proc.newIndex 2) .sub num
      (.binary (proc.newIndex 1) .mul (.binary (proc.newIndex 0) .chillDiv num den) den)))
  | .zeroDenCase => some (.upsilon (.const (proc.newIndex 3) 0))
  | _ => none

def executeBlocks (blocks : DivisionBlock → Option (LoweredBlock w)) (env : Environment) :
    ℕ → DivisionBlock → Option (List DivisionBlock × BitVec w.bits)
  | 0, _ => none
  | fuel + 1, block =>
    match blocks block with
    | none => none
    | some (.upsilon result) => some ([block], result.eval env)
    | some (.branch condition taken notTaken) =>
      (executeBlocks blocks env fuel (if condition.eval env = 0 then notTaken else taken)).map
        fun (visited, result) => (block :: visited, result)

def executeChillDivision (isARM64 : Bool) (proc : Procedure) (env : Environment)
    (opcode : PlainDivision) (num den : Value w) : Option (List DivisionBlock × BitVec w.bits) :=
  match isARM64, opcode with
  | false, _ => executeBlocks (makeDivisionChill proc opcode num den) env 7 .before
  | true, .mod => executeBlocks (makeModOnARM64 proc num den) env 7 .before
  | true, .div => some ([], chillDiv (num.eval env) (den.eval env))

structure PlainDivision.IsChill (opcode : PlainDivision) (num den result : BitVec w.bits) : Prop where
  zero : den = 0 → result = 0
  least : den = -1 → num = intMin _ → result = if opcode = .div then intMin _ else 0
  defined : ¬UndefinedDivision num den → result.toInt =
    if opcode = .div then num.toInt.tdiv den.toInt
    else num.toInt - num.toInt.tdiv den.toInt * den.toInt

variable (proc : Procedure) (env : Environment) (opcode : PlainDivision)

section Results

variable {num den : BitVec w.bits}

theorem isChill_of_zero (h : den = 0) : opcode.IsChill num den 0 := by
  have hne : (0 : BitVec w.bits) ≠ -1 := by cases w <;> decide
  exact ⟨fun _ => rfl, fun hneg => absurd (h.symm.trans hneg) hne, fun hdefined => absurd (.inl h) hdefined⟩

theorem isChill_of_least (hzero : den ≠ 0) (h : den = -1 ∧ num = intMin _) :
    opcode.IsChill num den (if opcode = .div then intMin _ else 0) :=
  ⟨fun hden => absurd hden hzero, fun _ _ => rfl, fun hdefined => absurd (.inr h) hdefined⟩

theorem isChill_opcode (h : ¬UndefinedDivision num den) :
    opcode.IsChill num den (opcode.opcode.eval env num den) := by
  refine ⟨fun hzero => absurd (.inl hzero) h, fun hden hnum => absurd (.inr ⟨hden, hnum⟩) h,
    fun _ => ?_⟩
  cases opcode with
  | div =>
    rw [PlainDivision.opcode, BinaryOpcode.eval, if_neg h]
    apply BitVec.toInt_sdiv_of_ne_or_ne
    exact (not_and_or.mp (not_or.mp h).2).symm
  | mod =>
    rw [PlainDivision.opcode, BinaryOpcode.eval, if_neg h, BitVec.toInt_srem, Int.tmod_def, mul_comm]
    rfl

/-- The opcodes that never trap have these results. -/
theorem isChill_chillOpcode : opcode.IsChill num den (opcode.chillOpcode.eval env num den) := by
  by_cases hzero : den = 0
  · have hres : opcode.chillOpcode.eval env num den = 0 := by
      cases opcode <;> exact if_pos hzero
    exact hres ▸ isChill_of_zero opcode hzero
  by_cases hleast : den = -1 ∧ num = intMin _
  · have hres : opcode.chillOpcode.eval env num den = if opcode = .div then intMin _ else 0 := by
      cases opcode <;> exact (if_neg hzero).trans (if_pos hleast)
    exact hres ▸ isChill_of_least opcode hzero hleast
  · have hdefined : ¬UndefinedDivision num den := not_or.mpr ⟨hzero, hleast⟩
    have hres : opcode.chillOpcode.eval env num den = opcode.opcode.eval env num den := by
      cases opcode <;> exact ((if_neg hzero).trans (if_neg hleast)).trans (if_neg hdefined).symm
    exact hres ▸ isChill_opcode env opcode hdefined

end Results

/-- One unsigned comparison finds the two special denominators. -/
theorem above_add_one_iff (den : BitVec w.bits) :
    CompareOpcode.above.eval (den + 1) 1 ↔ den ≠ 0 ∧ den ≠ -1 := by
  simp only [CompareOpcode.eval, decide_eq_true_eq]
  cases w <;> simp only [Width.bits] at den ⊢ <;> bv_omega

theorem eval_compare_eq_zero_iff (index : ℕ) (opcode : CompareOpcode) (left right : Value w) :
    (Value.compare index opcode left right).eval env = 0 ↔
      ¬opcode.eval (left.eval env) (right.eval env) := by
  rw [Value.eval]
  cases opcode.eval (left.eval env) (right.eval env) <;> decide

variable (num den : Value w)

/-- The plain division behind its guards has the result of the one that never traps, and is only
executed where it is defined. -/
theorem execute_makeDivisionChill :
    ∃ visited result, executeBlocks (makeDivisionChill proc opcode num den) env 7 .before =
        some (visited, result) ∧ opcode.IsChill (num.eval env) (den.eval env) result ∧
      (.normalDivCase ∈ visited → ¬UndefinedDivision (num.eval env) (den.eval env)) := by
  have hdenOK := (eval_compare_eq_zero_iff env (proc.newIndex 2) .above
    (.binary (proc.newIndex 1) .add den (.const (proc.newIndex 0) 1))
    (.const (proc.newIndex 0) 1)).trans (not_congr (above_add_one_iff (den.eval env)))
  have hbad := (eval_compare_eq_zero_iff env (proc.newIndex 6) .equal num
    (.const (proc.newIndex 5) (intMin w.bits))).trans (not_congr decide_eq_true_iff)
  rw [eval_const] at hbad
  by_cases hzero : den.eval env = 0
  · have hshady := hdenOK.mpr fun h => h.1 hzero
    simp only [executeBlocks, makeDivisionChill, hshady, hzero, if_true, Option.map_some, eval_const]
    exact ⟨_, _, rfl, isChill_of_zero opcode rfl, by simp⟩
  by_cases hneg : den.eval env = -1
  · have hshady := hdenOK.mpr fun h => h.2 hneg
    by_cases hnum : num.eval env = intMin w.bits
    · have hleast := mt hbad.mp (not_not.mpr hnum)
      simp only [executeBlocks, makeDivisionChill, hshady, hzero, hleast, if_true, if_false,
        Option.map_some, apply_ite (Value.eval env), eval_const]
      exact ⟨_, _, rfl, isChill_of_least opcode hzero ⟨hneg, hnum⟩, by simp⟩
    · have hdefined : ¬UndefinedDivision (num.eval env) (den.eval env) :=
        not_or.mpr ⟨hzero, fun h => hnum h.2⟩
      simp only [executeBlocks, makeDivisionChill, hshady, hzero, hbad.mpr hnum, if_true, if_false,
        Option.map_some, eval_binary]
      exact ⟨_, _, rfl, isChill_opcode env opcode hdefined, fun _ => hdefined⟩
  · have hdefined : ¬UndefinedDivision (num.eval env) (den.eval env) :=
      not_or.mpr ⟨hzero, fun h => hneg h.1⟩
    have hnormal := mt hdenOK.mp (not_not.mpr ⟨hzero, hneg⟩)
    simp only [executeBlocks, makeDivisionChill, hnormal, if_false, Option.map_some, eval_binary]
    exact ⟨_, _, rfl, isChill_opcode env opcode hdefined, fun _ => hdefined⟩

theorem execute_makeModOnARM64 :
    ∃ visited result, executeBlocks (makeModOnARM64 proc num den) env 7 .before =
        some (visited, result) ∧ PlainDivision.mod.IsChill (num.eval env) (den.eval env) result ∧
      .normalDivCase ∉ visited := by
  by_cases hzero : den.eval env = 0
  · simp only [executeBlocks, makeModOnARM64, hzero, if_true, Option.map_some, eval_const]
    exact ⟨_, _, rfl, isChill_of_zero .mod rfl, by simp⟩
  · have hchill : PlainDivision.mod.IsChill (num.eval env) (den.eval env) _ := isChill_chillOpcode env .mod
    simp only [executeBlocks, makeModOnARM64, hzero, if_false, Option.map_some, eval_binary,
      BinaryOpcode.eval, chillMod_eq _ hzero]
    exact ⟨_, _, rfl, hchill, by simp⟩

/-- The lowered divisions have the results of the opcodes that never trap, and the plain division is
only executed where it is defined. -/
theorem executeChillDivision_spec (isARM64 : Bool) :
    ∃ visited result, executeChillDivision isARM64 proc env opcode num den = some (visited, result) ∧
      opcode.IsChill (num.eval env) (den.eval env) result ∧
      (.normalDivCase ∈ visited → ¬UndefinedDivision (num.eval env) (den.eval env)) := by
  cases isARM64 with
  | false => exact execute_makeDivisionChill proc env opcode num den
  | true =>
    cases opcode with
    | div => exact ⟨[], _, rfl, isChill_chillOpcode env .div, nofun⟩
    | mod =>
      obtain ⟨visited, result, hexecute, hchill, hvisited⟩ := execute_makeModOnARM64 proc env num den
      exact ⟨visited, result, hexecute, hchill, fun h => absurd h hvisited⟩

end WebKit.B3
