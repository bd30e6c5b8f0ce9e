import Mathlib

/-!
Integer values of the B3 intermediate representation. A value is a node with an index
that identifies it in its procedure; values whose opcode computes nothing from integer
children (arguments, loads, phis, calls) are leaves. The opcodes have the meaning of the
machine: arithmetic wraps around, and a shift takes its amount modulo the width.
-/

namespace WebKit.B3

inductive Width where
  | int32
  | int64
  deriving DecidableEq, Repr

@[reducible]
def Width.bits : Width → ℕ
  | .int32 => 32
  | .int64 => 64

inductive BinaryOpcode where
  | add
  | sub
  | mul
  | div
  | mod
  | chillDiv
  | chillMod
  | bitAnd
  | bitOr
  | bitXor
  | checkAdd
  | checkSub
  | checkMul
  deriving DecidableEq, Repr

inductive ShiftOpcode where
  | shl
  | sShr
  | zShr
  deriving DecidableEq, Repr

inductive CompareOpcode where
  | equal
  | notEqual
  | lessThan
  | greaterThan
  | lessEqual
  | greaterEqual
  | above
  | below
  | aboveEqual
  | belowEqual
  deriving DecidableEq, Repr

inductive FloatCompareOpcode where
  | equal
  | notEqual
  | lessThan
  | greaterThan
  | lessEqual
  | greaterEqual
  | equalOrUnordered
  deriving DecidableEq, Repr

/-- A value with its children. The children of a comparison of floating-point numbers are
given by their indices. -/
inductive Value : Width → Type where
  | const {w : Width} (index : ℕ) (value : BitVec w.bits) : Value w
  | leaf {w : Width} (index : ℕ) : Value w
  | identity {w : Width} (index : ℕ) (child : Value w) : Value w
  | neg {w : Width} (index : ℕ) (child : Value w) : Value w
  | sExt8 (index : ℕ) (child : Value .int32) : Value .int32
  | sExt16 (index : ℕ) (child : Value .int32) : Value .int32
  | sExt32 (index : ℕ) (child : Value .int32) : Value .int64
  | zExt32 (index : ℕ) (child : Value .int32) : Value .int64
  | trunc (index : ℕ) (child : Value .int64) : Value .int32
  | binary {w : Width} (index : ℕ) (opcode : BinaryOpcode) (left right : Value w) : Value w
  | shift {w : Width} (index : ℕ) (opcode : ShiftOpcode) (left : Value w)
      (amount : Value .int32) : Value w
  | compare {w : Width} (index : ℕ) (opcode : CompareOpcode) (left right : Value w) : Value .int32
  | compareFloat (index : ℕ) (opcode : FloatCompareOpcode) (left right : ℕ) : Value .int32

/-- The values of the leaves at run time, what a division does where it may do anything, and
the comparisons of floating-point numbers. -/
structure Environment where
  leaf : (w : Width) → ℕ → BitVec w.bits
  undefinedResult : BinaryOpcode → (n : ℕ) → BitVec n → BitVec n → BitVec n
  compareFloat : FloatCompareOpcode → ℕ → ℕ → Bool
  compareFloat_notEqual : ∀ left right,
    compareFloat .notEqual left right = !compareFloat .equal left right

def constantEnvironment (bits : ℕ) : Environment where
  leaf w _ := BitVec.ofNat w.bits bits
  undefinedResult _ _ _ _ := 0
  compareFloat opcode _ _ := opcode = .notEqual
  compareFloat_notEqual _ _ := rfl

section Operations

variable {n : ℕ} (numerator denominator : BitVec n)

def UndefinedDivision : Prop :=
  denominator = 0 ∨ denominator = -1 ∧ numerator = BitVec.intMin n

instance (numerator denominator : BitVec n) : Decidable (UndefinedDivision numerator denominator) :=
  inferInstanceAs (Decidable (_ ∨ _))

def chillDiv : BitVec n :=
  if denominator = 0 then 0
  else if denominator = -1 ∧ numerator = BitVec.intMin n then BitVec.intMin n
  else numerator.sdiv denominator

def chillMod : BitVec n :=
  if denominator = 0 then 0
  else if denominator = -1 ∧ numerator = BitVec.intMin n then 0
  else numerator.srem denominator

/-- The checked operations have a result when they do not leave the procedure, and then it is
the one of the unchecked operations. -/
def BinaryOpcode.eval (env : Environment) (opcode : BinaryOpcode) (left right : BitVec n) :
    BitVec n :=
  match opcode with
  | .add => left + right
  | .sub => left - right
  | .mul => left * right
  | .div => if UndefinedDivision left right then env.undefinedResult .div n left right
      else left.sdiv right
  | .mod => if UndefinedDivision left right then env.undefinedResult .mod n left right
      else left.srem right
  | .chillDiv => B3.chillDiv left right
  | .chillMod => B3.chillMod left right
  | .bitAnd => left &&& right
  | .bitOr => left ||| right
  | .bitXor => left ^^^ right
  | .checkAdd => left + right
  | .checkSub => left - right
  | .checkMul => left * right

def ShiftOpcode.eval (opcode : ShiftOpcode) (left : BitVec n) (amount : ℕ) : BitVec n :=
  match opcode with
  | .shl => left <<< (amount % n)
  | .sShr => left.sshiftRight (amount % n)
  | .zShr => left >>> (amount % n)

def CompareOpcode.eval (opcode : CompareOpcode) (left right : BitVec n) : Bool :=
  match opcode with
  | .equal => left = right
  | .notEqual => left ≠ right
  | .lessThan => left.toInt < right.toInt
  | .greaterThan => left.toInt > right.toInt
  | .lessEqual => left.toInt ≤ right.toInt
  | .greaterEqual => left.toInt ≥ right.toInt
  | .above => left.toNat > right.toNat
  | .below => left.toNat < right.toNat
  | .aboveEqual => left.toNat ≥ right.toNat
  | .belowEqual => left.toNat ≤ right.toNat

end Operations

namespace Value

variable {w : Width}

def index : Value w → ℕ
  | const index _ => index
  | leaf index => index
  | identity index _ => index
  | neg index _ => index
  | sExt8 index _ => index
  | sExt16 index _ => index
  | sExt32 index _ => index
  | zExt32 index _ => index
  | trunc index _ => index
  | binary index _ _ _ => index
  | shift index _ _ _ => index
  | compare index _ _ _ => index
  | compareFloat index _ _ _ => index

def eval (env : Environment) {w : Width} : Value w → BitVec w.bits
  | const _ value => value
  | leaf index => env.leaf w index
  | identity _ child => child.eval env
  | neg _ child => -child.eval env
  | sExt8 _ child => ((child.eval env).setWidth 8).signExtend 32
  | sExt16 _ child => ((child.eval env).setWidth 16).signExtend 32
  | sExt32 _ child => (child.eval env).signExtend 64
  | zExt32 _ child => (child.eval env).setWidth 64
  | trunc _ child => (child.eval env).setWidth 32
  | binary _ opcode left right => opcode.eval env (left.eval env) (right.eval env)
  | shift _ opcode left amount => opcode.eval (left.eval env) (amount.eval env).toNat
  | compare _ opcode left right => (BitVec.ofBool (opcode.eval (left.eval env) (right.eval env))).setWidth 32
  | compareFloat _ opcode left right => (BitVec.ofBool (env.compareFloat opcode left right)).setWidth 32

def asConstant : Value w → Option (BitVec w.bits)
  | const _ value => some value
  | _ => none

def isConstant (value : Value w) : Bool := value.asConstant.isSome

def isInt (value : Value w) (constant : ℤ) : Bool := value.asConstant.elim false (·.toInt = constant)

variable {env : Environment} {value : Value w} {constant : BitVec w.bits}

theorem eval_of_asConstant (h : value.asConstant = some constant) : value.eval env = constant := by
  cases value with
  | const index value =>
    rw [eval]
    exact Option.some.inj h
  | _ => exact absurd h nofun

theorem toInt_eval_of_isInt {k : ℤ} (h : value.isInt k) : (value.eval env).toInt = k := by
  unfold isInt at h
  cases hconst : value.asConstant with
  | none => simp [hconst] at h
  | some constant =>
    rw [hconst] at h
    rw [eval_of_asConstant hconst]
    simpa using h

end Value

structure Procedure where
  value : ℕ → Option (Σ w, Value w)
  newIndex : ℕ → ℕ
  newIndex_unused : ∀ k, value (newIndex k) = none

def Value.InProcedure (proc : Procedure) {w : Width} : Value w → Prop
  | const index value => proc.value index = some ⟨w, const index value⟩
  | leaf index => proc.value index = some ⟨w, leaf index⟩
  | identity index child => proc.value index = some ⟨w, identity index child⟩ ∧ child.InProcedure proc
  | neg index child => proc.value index = some ⟨w, neg index child⟩ ∧ child.InProcedure proc
  | sExt8 index child => proc.value index = some ⟨.int32, sExt8 index child⟩ ∧ child.InProcedure proc
  | sExt16 index child => proc.value index = some ⟨.int32, sExt16 index child⟩ ∧ child.InProcedure proc
  | sExt32 index child => proc.value index = some ⟨.int64, sExt32 index child⟩ ∧ child.InProcedure proc
  | zExt32 index child => proc.value index = some ⟨.int64, zExt32 index child⟩ ∧ child.InProcedure proc
  | trunc index child => proc.value index = some ⟨.int32, trunc index child⟩ ∧ child.InProcedure proc
  | binary index opcode left right => proc.value index = some ⟨w, binary index opcode left right⟩ ∧
      left.InProcedure proc ∧ right.InProcedure proc
  | shift index opcode left amount => proc.value index = some ⟨w, shift index opcode left amount⟩ ∧
      left.InProcedure proc ∧ amount.InProcedure proc
  | compare index opcode left right =>
      proc.value index = some ⟨.int32, compare index opcode left right⟩ ∧
        left.InProcedure proc ∧ right.InProcedure proc
  | compareFloat index opcode left right =>
      proc.value index = some ⟨.int32, compareFloat index opcode left right⟩

section Folding

variable {w : Width}

def foldConstant (operation : BitVec w.bits → BitVec w.bits → Option (BitVec w.bits))
    (left right : Value w) : Option (BitVec w.bits) :=
  match left.asConstant, right.asConstant with
  | some a, some b => operation a b
  | _, _ => none

theorem foldConstant_eq_some {operation : BitVec w.bits → BitVec w.bits → Option (BitVec w.bits)}
    {left right : Value w} {result : BitVec w.bits} (env : Environment)
    (h : foldConstant operation left right = some result) :
    operation (left.eval env) (right.eval env) = some result := by
  unfold foldConstant at h
  cases hleft : left.asConstant with
  | none => simp [hleft] at h
  | some a =>
    cases hright : right.asConstant with
    | none => simp [hleft, hright] at h
    | some b =>
      rw [Value.eval_of_asConstant hleft, Value.eval_of_asConstant hright]
      simpa [hleft, hright] using h

def handleCommutativity (left right : Value w) : Value w × Value w :=
  if right.isConstant then (left, right)
  else if left.isConstant then (right, left)
  else if left.index > right.index then (right, left)
  else (left, right)

theorem handleCommutativity_cases (left right : Value w) :
    handleCommutativity left right = (left, right) ∨
      handleCommutativity left right = (right, left) := by
  unfold handleCommutativity
  split_ifs
  · exact .inl rfl
  · exact .inr rfl
  · exact .inr rfl
  · exact .inl rfl

end Folding

end WebKit.B3
