import WebKit.B3.Value

/-!
Strength reduction of integer values. One application of reduceValueStrength rewrites
the children of a value in place or replaces the value by an identity; the functions
below return the value as it is afterwards. New values get indices of the procedure
that were not in use.
-/

namespace WebKit.B3

open BitVec hiding add_zero mul_two mul_zero neg_zero not_or
open Value (eval_of_asConstant eval)
open ShiftOpcode (shl sShr)

section Constants

variable {w : Width}

def foldShift (opcode : ShiftOpcode) (left : Value w) (amount : Value .int32) : Option (BitVec w.bits) :=
  match left.asConstant, amount.asConstant with
  | some a, some k => some <|
    let count := (k &&& BitVec.ofNat _ (w.bits - 1)).toNat
    match opcode with
    | .shl => a <<< count
    | .sShr => a.sshiftRight count
    | .zShr => a >>> count
  | _, _ => none

def addConstant : Value w → Value w → Option (BitVec w.bits) := foldConstant fun a b => some (a + b)

def subConstant : Value w → Value w → Option (BitVec w.bits) := foldConstant fun a b => some (a - b)

def mulConstant : Value w → Value w → Option (BitVec w.bits) := foldConstant fun a b => some (a * b)

def modConstant : Value w → Value w → Option (BitVec w.bits) :=
  foldConstant fun a b => some (chillMod a b)

def bitAndConstant : Value w → Value w → Option (BitVec w.bits) :=
  foldConstant fun a b => some (a &&& b)

def bitOrConstant : Value w → Value w → Option (BitVec w.bits) :=
  foldConstant fun a b => some (a ||| b)

def bitXorConstant : Value w → Value w → Option (BitVec w.bits) :=
  foldConstant fun a b => some (a ^^^ b)

def negConstant (value : Value w) : Option (BitVec w.bits) := value.asConstant.map (-·)

def hasOneBitSet (value : BitVec 64) : Bool := (value - 1) &&& value = 0 ∧ value ≠ 0

def fastLog2Word (i : ℕ) : ℕ :=
  let log2 := if i &&& (i - 1) ≠ 0 then 1 else 0
  let (log2, i) := if i >>> 16 ≠ 0 then (log2 + 16, i >>> 16) else (log2, i)
  let (log2, i) := if i >>> 8 ≠ 0 then (log2 + 8, i >>> 8) else (log2, i)
  let (log2, i) := if i >>> 4 ≠ 0 then (log2 + 4, i >>> 4) else (log2, i)
  let (log2, i) := if i >>> 2 ≠ 0 then (log2 + 2, i >>> 2) else (log2, i)
  if i >>> 1 ≠ 0 then log2 + 1 else log2

def fastLog2 (value : BitVec 64) : ℕ :=
  let high := value.toNat >>> 32
  if high ≠ 0 then fastLog2Word high + 32 else fastLog2Word (value.toNat % 2 ^ 32)

end Constants

section Arithmetic

variable {w : Width} (proc : Procedure)

def reassociate (opcode : BinaryOpcode) (fold : Value w → Value w → Option (BitVec w.bits))
    (left right : Value w) : Value w × Value w :=
  match left with
  | .binary _ opcode' value constant1 =>
    if opcode' = opcode then
      match fold right constant1 with
      | some constant => (value, .const (proc.newIndex 0) constant)
      | none => (left, right)
    else (left, right)
  | _ => (left, right)

variable (index : ℕ) (left right : Value w)

def reduceAddOfNegated : Value w :=
  match left with
  | .binary _ .sub zero value =>
    if right.isInt (-1) ∧ zero.isInt 0 then
      .identity index (.binary (proc.newIndex 1) .bitXor value right)
    else .binary index .add left right
  | _ => .binary index .add left right

def reduceAdd : Value w :=
  let (left, right) := handleCommutativity left right
  let (left, right) := reassociate proc .add addConstant left right
  match addConstant left right with
  | some constant => .identity index (.const (proc.newIndex 1) constant)
  | none =>
    if left.index = right.index then
      .identity index (.shift (proc.newIndex 2) .shl left (.const (proc.newIndex 1) 1))
    else if right.isInt 0 then .identity index left
    else reduceAddOfNegated proc index left right

def reduceSub : Value w :=
  match subConstant left right with
  | some constant => .identity index (.const (proc.newIndex 0) constant)
  | none =>
    match negConstant right with
    | some negatedConstant =>
      .identity index (.binary (proc.newIndex 1) .add left (.const (proc.newIndex 0) negatedConstant))
    | none =>
      if left.isInt 0 then .identity index (.neg (proc.newIndex 0) right)
      else .binary index .sub left right

def reduceNeg (child : Value w) : Value w :=
  match negConstant child with
  | some constant => .identity index (.const (proc.newIndex 0) constant)
  | none =>
    match child with
    | .neg _ value => .identity index value
    | _ => .neg index child

def reduceMulByConstant (factor : BitVec w.bits) : Value w :=
  if factor.toInt = 0 then .identity index right
  else if factor.toInt = 1 then .identity index left
  else if factor.toInt = -1 then
    .identity index (.binary (proc.newIndex 1) .sub (.const (proc.newIndex 0) 0) left)
  else if hasOneBitSet (factor.signExtend 64) then
    .identity index (.shift (proc.newIndex 1) .shl left
      (.const (proc.newIndex 0) (BitVec.ofNat _ (fastLog2 (factor.signExtend 64)))))
  else .binary index .mul left right

def reduceMul : Value w :=
  let (left, right) := handleCommutativity left right
  match mulConstant left right with
  | some constant => .identity index (.const (proc.newIndex 0) constant)
  | none =>
    match right.asConstant with
    | some factor => reduceMulByConstant proc index left right factor
    | none => .binary index .mul left right

inductive RemainderOpcode where
  | mod
  | chillMod
  deriving DecidableEq, Repr

def RemainderOpcode.opcode : RemainderOpcode → BinaryOpcode
  | .mod => .mod
  | .chillMod => .chillMod

def RemainderOpcode.divOpcode : RemainderOpcode → BinaryOpcode
  | .mod => .div
  | .chillMod => .chillDiv

def reduceMod (opcode : RemainderOpcode) (left right : Value w) : Value w :=
  match modConstant left right with
  | some constant => .identity index (.const (proc.newIndex 0) constant)
  | none =>
    match right.asConstant with
    | some divisor =>
      if divisor.toInt = 0 then .identity index right
      else
        .identity index (.binary (proc.newIndex 2) .sub left
          (.binary (proc.newIndex 1) .mul
            (.binary (proc.newIndex 0) opcode.divOpcode left right) right))
    | none => .binary index opcode.opcode left right

end Arithmetic

section Bits

variable {w : Width}

def isAllOnes (value : Value w) : Bool :=
  match w with
  | .int64 => value.isInt (-1)
  | .int32 => value.isInt 0xffffffff

variable (proc : Procedure) (index : ℕ)

def reduceBitAndOnes32 {w : Width} (left right : Value w) : Option (Value w) :=
  match w with
  | .int64 =>
    if right.isInt 0xffffffff then
      some (.identity index (.zExt32 (proc.newIndex 2) (.trunc (proc.newIndex 1) left)))
    else none
  | .int32 => none

def dropSExt8 {w : Width} (left right : Value w) : Value w :=
  match left with
  | .sExt8 extension value =>
    match right.asConstant with
    | some mask => if mask &&& 0xffffff00 = 0 then value else .sExt8 extension value
    | none => .sExt8 extension value
  | left => left

def dropSExt16 {w : Width} (left right : Value w) : Value w :=
  match left with
  | .sExt16 extension value =>
    match right.asConstant with
    | some mask => if mask &&& 0xffff0000 = 0 then value else .sExt16 extension value
    | none => .sExt16 extension value
  | left => left

def dropDisjointBits (left right : Value w) : Value w :=
  match left with
  | .binary _ opcode value constant1 =>
    match right.asConstant, constant1.asConstant with
    | some mask, some bits =>
      if (opcode = .bitOr ∨ opcode = .bitXor) ∧ bits &&& mask = 0 then value else left
    | _, _ => left
  | _ => left

/-- The rule for SExt32 under a mask of 32 bits is left out: the mask of a 64-bit value has 64
bits. -/
def reduceBitAnd (left right : Value w) : Value w :=
  let (left, right) := handleCommutativity left right
  match bitAndConstant left right with
  | some constant => .identity index (.const (proc.newIndex 0) constant)
  | none =>
    let (left, right) := reassociate proc .bitAnd bitAndConstant left right
    if left.index = right.index then .identity index left
    else if right.isInt 0 then .identity index right
    else if isAllOnes right then .identity index left
    else
      match reduceBitAndOnes32 proc index left right with
      | some value => value
      | none =>
        let left := dropSExt16 (dropSExt8 left right) right
        .binary index .bitAnd (dropDisjointBits left right) right

def reduceBitOr (left right : Value w) : Value w :=
  let (left, right) := handleCommutativity left right
  match bitOrConstant left right with
  | some constant => .identity index (.const (proc.newIndex 0) constant)
  | none =>
    let (left, right) := reassociate proc .bitOr bitOrConstant left right
    if left.index = right.index then .identity index left
    else if right.isInt 0 then .identity index left
    else if isAllOnes right then .identity index right
    else .binary index .bitOr left right

def CompareOpcode.inverted : CompareOpcode → CompareOpcode
  | .equal => .notEqual
  | .notEqual => .equal
  | .lessThan => .greaterEqual
  | .greaterThan => .lessEqual
  | .lessEqual => .greaterThan
  | .greaterEqual => .lessThan
  | .above => .belowEqual
  | .below => .aboveEqual
  | .aboveEqual => .below
  | .belowEqual => .above

def FloatCompareOpcode.inverted : FloatCompareOpcode → Option FloatCompareOpcode
  | .equal => some .notEqual
  | .notEqual => some .equal
  | _ => none

def invertedCompare : Value w → Option (Value w)
  | .compare _ opcode left right => some (.compare (proc.newIndex 1) opcode.inverted left right)
  | .compareFloat _ opcode left right =>
    opcode.inverted.map fun opcode => .compareFloat (proc.newIndex 1) opcode left right
  | _ => none

def invertedCompareByOne (left right : Value w) : Option (Value w) :=
  if right.isInt 1 then invertedCompare proc left else none

def reduceBitXor (left right : Value w) : Value w :=
  let (left, right) := handleCommutativity left right
  match bitXorConstant left right with
  | some constant => .identity index (.const (proc.newIndex 0) constant)
  | none =>
    let (left, right) := reassociate proc .bitXor bitXorConstant left right
    match invertedCompareByOne proc left right with
    | some inverted => .identity index inverted
    | none =>
      if left.index = right.index then .identity index (.const (proc.newIndex 1) 0)
      else if right.isInt 0 then .identity index left
      else .binary index .bitXor left right

end Bits

section Shifts

variable {w : Width}

def dropAmountMask (w : Width) (amount : Value .int32) : Value .int32 :=
  match amount with
  | .binary _ .bitAnd value mask =>
    match mask.asConstant with
    | some constant =>
      if constant &&& BitVec.ofNat _ (w.bits - 1) = BitVec.ofNat _ (w.bits - 1) then value else amount
    | none => amount
  | _ => amount

def handleShiftAmount (index : ℕ) (opcode : ShiftOpcode) (left : Value w) (amount : Value .int32) :
    Value w :=
  if amount.isInt 0 then .identity index left
  else .shift index opcode left (dropAmountMask w amount)

variable (proc : Procedure)

def reduceShl (index : ℕ) (left : Value w) (amount : Value .int32) : Value w :=
  match foldShift .shl left amount with
  | some constant => .identity index (.const (proc.newIndex 0) constant)
  | none => handleShiftAmount index .shl left amount

def reduceZShr (index : ℕ) (left : Value w) (amount : Value .int32) : Value w :=
  match foldShift .zShr left amount with
  | some constant => .identity index (.const (proc.newIndex 0) constant)
  | none => handleShiftAmount index .zShr left amount

def extensionForShift {w : Width} (value : Value w) (count : ℤ) : Option (Value w) :=
  match w with
  | .int32 =>
    if count = 16 then some (.sExt16 (proc.newIndex 0) value)
    else if count = 24 then some (.sExt8 (proc.newIndex 0) value)
    else none
  | .int64 =>
    if count = 32 then some (.sExt32 (proc.newIndex 1) (.trunc (proc.newIndex 0) value)) else none

def reduceShiftBack (left : Value w) (amount : Value .int32) : Option (Value w) :=
  match left with
  | .shift _ .shl value inner =>
    match amount.asConstant, inner.asConstant with
    | some outerCount, some innerCount =>
      if outerCount = innerCount then extensionForShift proc value outerCount.toInt else none
    | _, _ => none
  | _ => none

def reduceSShr (index : ℕ) (left : Value w) (amount : Value .int32) : Value w :=
  match foldShift .sShr left amount with
  | some constant => .identity index (.const (proc.newIndex 0) constant)
  | none =>
    match reduceShiftBack proc left amount with
    | some extension => .identity index extension
    | none => handleShiftAmount index .sShr left amount

end Shifts

section Extensions

def asMasked {w : Width} : Value w → Option (Value w × BitVec w.bits)
  | .binary _ .bitAnd input mask => mask.asConstant.map fun constant => (input, constant)
  | _ => none

variable (proc : Procedure) (index : ℕ)

/-- A sign extension of a masked value, where `low` are the bits that are extended, `sign` is the
highest of them and `rest` are the others. -/
def reduceExtensionOfMasked (extend : Value .int32 → Value .int32)
    (low sign rest : BitVec Width.int32.bits) (child : Value .int32) : Value .int32 :=
  match asMasked child with
  | some (input, mask) =>
    if mask &&& low = low then extend input
    else if mask &&& sign = 0 then
      .identity index (.binary (proc.newIndex 1) .bitAnd input
        (.const (proc.newIndex 0) (mask &&& rest)))
    else extend child
  | none => extend child

variable (child : Value .int32)

def reduceSExt8 : Value .int32 :=
  match child.asConstant with
  | some constant =>
    .identity index (.const (proc.newIndex 0) ((constant.setWidth 8).signExtend 32))
  | none =>
    let child :=
      match child with
      | .sExt8 _ value => value
      | .sExt16 _ value => value
      | child => child
    reduceExtensionOfMasked proc index (.sExt8 index) 0xff 0x80 0x7f child

def reduceInnerSExt16 : Value .int32 :=
  match child with
  | .sExt8 extension value => .identity index (.sExt8 extension value)
  | child => reduceExtensionOfMasked proc index (.sExt16 index) 0xffff 0x8000 0x7fff child

def reduceSExt16 : Value .int32 :=
  match child.asConstant with
  | some constant =>
    .identity index (.const (proc.newIndex 0) ((constant.setWidth 16).signExtend 32))
  | none =>
    let child :=
      match child with
      | .sExt16 _ value => value
      | child => child
    reduceInnerSExt16 proc index child

def reduceSExt32 : Value .int64 :=
  match child.asConstant with
  | some constant => .identity index (.const (proc.newIndex 0) (constant.signExtend 64))
  | none =>
    match asMasked child with
    | some (_, mask) =>
      if mask &&& 0x80000000 = 0 then .identity index (.zExt32 (proc.newIndex 0) child)
      else .sExt32 index child
    | none => .sExt32 index child

def reduceZExt32 : Value .int64 :=
  match child.asConstant with
  | some constant => .identity index (.const (proc.newIndex 0) (constant.setWidth 64))
  | none => .zExt32 index child

def dropHighOperation (child : Value .int64) : Value .int64 :=
  match child with
  | .binary _ opcode value constant =>
    match constant.asConstant with
    | some bits =>
      if (opcode = .add ∨ opcode = .sub ∨ opcode = .bitOr ∨ opcode = .bitXor) ∧
          bits &&& 0xffffffff = 0 then value
      else child
    | none => child
  | _ => child

def reduceTrunc (child : Value .int64) : Value .int32 :=
  match child.asConstant with
  | some constant => .identity index (.const (proc.newIndex 0) (constant.setWidth 32))
  | none =>
    match child with
    | .sExt32 _ value => .identity index value
    | .zExt32 _ value => .identity index value
    | child => .trunc index (dropHighOperation child)

end Extensions

def reduceValueStrength (proc : Procedure) {w : Width} : Value w → Value w
  | .binary index .add left right => reduceAdd proc index left right
  | .binary index .sub left right => reduceSub proc index left right
  | .neg index child => reduceNeg proc index child
  | .binary index .mul left right => reduceMul proc index left right
  | .binary index .mod left right => reduceMod proc index .mod left right
  | .binary index .chillMod left right => reduceMod proc index .chillMod left right
  | .binary index .bitAnd left right => reduceBitAnd proc index left right
  | .binary index .bitOr left right => reduceBitOr proc index left right
  | .binary index .bitXor left right => reduceBitXor proc index left right
  | .shift index .shl left amount => reduceShl proc index left amount
  | .shift index .sShr left amount => reduceSShr proc index left amount
  | .shift index .zShr left amount => reduceZShr proc index left amount
  | .sExt8 index child => reduceSExt8 proc index child
  | .sExt16 index child => reduceSExt16 proc index child
  | .sExt32 index child => reduceSExt32 proc index child
  | .zExt32 index child => reduceZExt32 proc index child
  | .trunc index child => reduceTrunc proc index child
  | value => value

section Spec

variable {w : Width} {proc : Procedure} {left right value : Value w} {env : Environment}

theorem Value.InProcedure.value_index (h : value.InProcedure proc) :
    proc.value value.index = some ⟨w, value⟩ := by
  cases value <;> first | exact h | exact h.1

theorem foldConstant_some_eq {operation : BitVec w.bits → BitVec w.bits → BitVec w.bits}
    {result : BitVec w.bits} (h : foldConstant (fun a b => some (operation a b)) left right = some result)
    (env : Environment) : operation (left.eval env) (right.eval env) = result :=
  Option.some.inj (foldConstant_eq_some env h)

variable {constant x : BitVec w.bits} {k : ℕ}

theorem eval_of_negConstant (h : negConstant value = some constant) (env : Environment) :
    -value.eval env = constant := by
  obtain ⟨c, hc, rfl⟩ := Option.map_eq_some_iff.mp h
  rw [eval_of_asConstant hc]

theorem eval_of_isInt {k : ℤ} (h : value.isInt k) (hk : constant.toInt = k)
    (env : Environment) : value.eval env = constant :=
  eq_of_toInt_eq ((Value.toInt_eval_of_isInt h).trans hk.symm)

theorem eval_of_isInt_zero (h : value.isInt 0) (env : Environment) : value.eval env = 0 :=
  eval_of_isInt h toInt_zero env

theorem toInt_one (w : Width) : (1 : BitVec w.bits).toInt = 1 := by cases w <;> rfl

theorem toInt_neg_one (w : Width) : (-1 : BitVec w.bits).toInt = -1 := by cases w <;> rfl

/-- The operands of a commutative operation may be swapped. -/
theorem handleCommutativity_spec (operation : BitVec w.bits → BitVec w.bits → BitVec w.bits)
    (hcomm : ∀ x y, operation x y = operation y x) (hleft : left.InProcedure proc)
    (hright : right.InProcedure proc) :
    ∃ left' right', handleCommutativity left right = (left', right') ∧
      left'.InProcedure proc ∧ right'.InProcedure proc ∧
      ∀ env, operation (left'.eval env) (right'.eval env) = operation (left.eval env) (right.eval env) := by
  rcases handleCommutativity_cases left right with hord | hord
  · exact ⟨left, right, hord, hleft, hright, fun env => rfl⟩
  · exact ⟨right, left, hord, hright, hleft, fun env => hcomm _ _⟩

section

variable (opcode : BinaryOpcode) (operation : BitVec w.bits → BitVec w.bits → BitVec w.bits)
  (hopcode : ∀ env x y, opcode.eval env x y = operation x y)

include hopcode

/-- Combining two constants keeps the result, and the operands stay distinguished by their
indices. -/
theorem reassociate_spec
    (hassoc : ∀ x y z, operation x (operation z y) = operation (operation x y) z)
    (hleft : left.InProcedure proc) (hright : right.InProcedure proc) :
    ∃ left' right',
      reassociate proc opcode (foldConstant fun a b => some (operation a b)) left right =
        (left', right') ∧
      (∀ env, operation (left'.eval env) (right'.eval env) =
        operation (left.eval env) (right.eval env)) ∧
      (left'.index = right'.index → ∀ env, left'.eval env = right'.eval env) := by
  have hsame : left.index = right.index → ∀ env, left.eval env = right.eval env := by
    intro h env
    have hval := hleft.value_index
    rw [h, hright.value_index] at hval
    rw [eq_of_heq (Sigma.mk.inj (Option.some.inj hval)).2]
  cases left with
  | binary index opcode' inner constant1 =>
    simp only [reassociate]
    split_ifs with hsameOpcode
    · cases hconst : foldConstant (fun a b => some (operation a b)) right constant1 with
      | none => exact ⟨_, right, rfl, fun env => rfl, hsame⟩
      | some constant =>
        refine ⟨inner, .const (proc.newIndex 0) constant, rfl, fun env => ?_, fun hidx => ?_⟩
        · rw [eval, ← foldConstant_some_eq hconst env, hassoc, eval, hsameOpcode, hopcode]
        · have hused := hleft.2.1.value_index
          rw [hidx] at hused
          exact absurd ((proc.newIndex_unused 0).symm.trans hused) (by simp)
    · exact ⟨_, right, rfl, fun env => rfl, hsame⟩
  | _ => exact ⟨_, right, rfl, fun env => rfl, hsame⟩

/-- The operands of a commutative and associative operation after they are put in order, and after
constants are combined. -/
theorem operands_spec (hcomm : ∀ x y, operation x y = operation y x)
    (hassoc : ∀ x y z, operation (operation x y) z = operation x (operation y z))
    (hleft : left.InProcedure proc) (hright : right.InProcedure proc) :
    ∃ first second first' second', handleCommutativity left right = (first, second) ∧
      reassociate proc opcode (foldConstant fun a b => some (operation a b)) first second =
        (first', second') ∧
      (∀ env, operation (first.eval env) (second.eval env) =
        operation (left.eval env) (right.eval env)) ∧
      (∀ env, operation (first'.eval env) (second'.eval env) =
        operation (left.eval env) (right.eval env)) ∧
      (first'.index = second'.index → ∀ env, first'.eval env = second'.eval env) := by
  obtain ⟨first, second, hord, hfst, hsnd, heval⟩ :=
    handleCommutativity_spec operation hcomm hleft hright
  obtain ⟨first', second', hreassociate, heval', hsame⟩ :=
    reassociate_spec opcode operation hopcode (fun x y z => by rw [hcomm z, hassoc]) hfst hsnd
  exact ⟨first, second, first', second', hord, hreassociate, heval,
    fun env => (heval' env).trans (heval env), hsame⟩

end

variable (index : ℕ) (child : Value w)

/-- An identity has the value of its child. -/
@[simp]
theorem eval_identity : (Value.identity index child).eval env = child.eval env := by rw [eval]

@[simp]
theorem eval_const (constant : BitVec w.bits) :
    (Value.const index constant).eval env = constant := by rw [eval]

/-- A value that is replaced by a constant where one is found for it. -/
theorem eval_folded {index k : ℕ} {found : Option (BitVec w.bits)} {rest : Value w} :
    (∀ constant, found = some constant → x = constant) → rest.eval env = x →
    (match found with
      | some constant => .identity index (.const k constant)
      | none => rest : Value w).eval env = x := by
  intro hsome hnone
  cases found with
  | some constant => rw [eval_identity, eval_const, hsome constant rfl]
  | none => exact hnone

@[simp]
theorem eval_binary (opcode : BinaryOpcode) (left right : Value w) :
    (Value.binary index opcode left right).eval env =
      opcode.eval env (left.eval env) (right.eval env) := by rw [eval]

variable (opcode : ShiftOpcode)

@[simp]
theorem eval_shift (left : Value w) (amount : Value .int32) :
    (Value.shift index opcode left amount).eval env =
      opcode.eval (left.eval env) (amount.eval env).toNat := by rw [eval]

@[simp]
theorem eval_neg : (Value.neg index child).eval env = -child.eval env := by rw [eval]

theorem add_self_eq_shl (x : BitVec w.bits) : x + x = shl.eval x 1 := by
  have hone : 1 % w.bits = 1 := by cases w <;> rfl
  have htwo : BitVec.twoPow w.bits 1 = 2 := by cases w <;> rfl
  rw [ShiftOpcode.eval, hone, BitVec.shiftLeft_eq_mul_twoPow, htwo, mul_two]

theorem xor_neg_one (x : BitVec w.bits) : x ^^^ -1 = -x - 1 := by
  rw [show (-1 : BitVec w.bits) = BitVec.allOnes _ from BitVec.neg_one_eq_allOnes, BitVec.xor_allOnes,
    BitVec.not_eq_neg_add]
  rfl

theorem eval_reduceAddOfNegated (left right : Value w) :
    (reduceAddOfNegated proc index left right).eval env = left.eval env + right.eval env := by
  cases left with
  | binary subIndex opcode zero inner =>
    cases opcode with
    | sub =>
      simp only [reduceAddOfNegated]
      split_ifs with hguard
      · have hright := eval_of_isInt hguard.1 (toInt_neg_one w) env
        have hzero := eval_of_isInt_zero hguard.2 env
        simp only [eval_identity, eval_binary, BinaryOpcode.eval, hright, hzero]
        rw [zero_sub, ← sub_eq_add_neg, xor_neg_one]
      · simp [BinaryOpcode.eval]
    | _ => simp [reduceAddOfNegated, BinaryOpcode.eval]
  | _ => simp [reduceAddOfNegated, BinaryOpcode.eval]

theorem eval_reduceAdd (hleft : left.InProcedure proc) (hright : right.InProcedure proc) :
    (reduceAdd proc index left right).eval env = left.eval env + right.eval env := by
  obtain ⟨first, second, first', second', hord,
    (hassoc : reassociate proc .add addConstant _ _ = _), -, heval, hsame⟩ :=
    operands_spec .add (· + ·) (fun _ _ _ => rfl) add_comm add_assoc hleft hright
  have hsum := heval env
  simp only [reduceAdd, hord, hassoc]
  rw [← hsum]
  refine eval_folded (fun _ h => foldConstant_some_eq h env) ?_
  split_ifs with hidx hzero
  · rw [← hsame hidx env, add_self_eq_shl, eval_identity, eval_shift, eval_const]
    rfl
  · rw [eval_of_isInt_zero hzero, add_zero, eval_identity]
  · exact eval_reduceAddOfNegated index first' second'

theorem eval_reduceSub (left right : Value w) :
    (reduceSub proc index left right).eval env = left.eval env - right.eval env := by
  unfold reduceSub
  refine eval_folded (fun _ h => foldConstant_some_eq h env) ?_
  cases hnegated : negConstant right with
  | some negatedConstant =>
    rw [eval_identity, eval_binary, eval_const, ← eval_of_negConstant hnegated env]
    exact (sub_eq_add_neg _ _).symm
  | none =>
    split_ifs with hzero
    · rw [eval_identity, eval_neg, eval_of_isInt_zero hzero, zero_sub]
    · exact eval_binary index .sub left right

theorem eval_reduceNeg : (reduceNeg proc index child).eval env = -child.eval env := by
  unfold reduceNeg
  refine eval_folded (fun _ h => eval_of_negConstant h env) ?_
  cases child with
  | neg inner value =>
    rw [eval_identity, eval_neg, neg_neg]
  | _ => exact eval_neg index _

/-- A word with one bit is a power of two, and its logarithm is the position of the bit. -/
theorem fastLog2_of_hasOneBitSet {x : BitVec 64} (h : hasOneBitSet x) :
    fastLog2 x < 64 ∧ x = BitVec.twoPow 64 (fastLog2 x) := by
  simp only [hasOneBitSet, decide_eq_true_eq] at h
  obtain ⟨hand, hne⟩ := h
  have hpos : x.toNat ≠ 0 := fun hzero => hne (eq_of_toNat_eq hzero)
  have hpred : (x - 1).toNat = x.toNat - 1 := by bv_omega
  have hpower : x.toNat &&& (x.toNat - 1) = 0 := by
    rw [← hpred, ← BitVec.toNat_and, BitVec.and_comm, hand]
    rfl
  obtain ⟨k, hk⟩ := (Nat.and_sub_one_eq_zero_iff_isPowerOfTwo hpos).mp hpower
  have hlt : k < 64 := by
    rw [← Nat.pow_lt_pow_iff_right (show 1 < 2 by norm_num), ← hk]
    exact x.isLt
  have hx : x = BitVec.twoPow 64 k := by
    apply eq_of_toNat_eq
    rw [hk, toNat_twoPow_of_lt hlt]
  have htable : ∀ i : Fin 64, fastLog2 (BitVec.twoPow 64 i) = i := by decide
  rw [hx, htable ⟨k, hlt⟩]
  exact ⟨hlt, rfl⟩

/-- A factor whose sign extension has one bit is the power of two itself. -/
theorem eq_twoPow_of_signExtend {factor : BitVec w.bits} (hne : factor ≠ 0) (hk : k < 64)
    (h : factor.signExtend 64 = BitVec.twoPow 64 k) :
    k < w.bits ∧ factor = BitVec.twoPow w.bits k := by
  have hbits : w.bits ≤ 64 := by cases w <;> decide
  have hget : ∀ j < w.bits, factor.getLsbD j = decide (k = j) := by
    intro j hj
    have hext : (factor.signExtend 64).getLsbD j = (BitVec.twoPow 64 k).getLsbD j := by rw [h]
    rw [getLsbD_signExtend, getLsbD_twoPow] at hext
    simpa only [hj, hj.trans_le hbits, hk, decide_true, Bool.true_and, if_true] using hext
  have hlt : k < w.bits := by
    by_contra hge
    refine hne (eq_of_getLsbD_eq fun j hj => ?_)
    have hdiffers : k ≠ j := by omega
    simpa [hdiffers] using hget j hj
  refine ⟨hlt, BitVec.eq_of_getLsbD_eq fun j hj => ?_⟩
  rw [hget j hj, BitVec.getLsbD_twoPow]
  simp [hlt]

theorem eval_reduceMulByConstant {factor : BitVec w.bits} (left right : Value w)
    (hfactor : right.asConstant = some factor) :
    (reduceMulByConstant proc index left right factor).eval env = left.eval env * right.eval env := by
  have hright : right.eval env = factor := eval_of_asConstant hfactor
  unfold reduceMulByConstant
  split_ifs with hzero hone hminus hbit
  · have hfactor' : factor = 0 := BitVec.eq_of_toInt_eq (hzero.trans BitVec.toInt_zero.symm)
    rw [eval_identity, hright, hfactor', mul_zero]
  · have hfactor' : factor = 1 := BitVec.eq_of_toInt_eq (hone.trans (toInt_one w).symm)
    rw [eval_identity, hright, hfactor', mul_one]
  · have hfactor' : factor = -1 := BitVec.eq_of_toInt_eq (hminus.trans (toInt_neg_one w).symm)
    rw [eval_identity, eval_binary, eval_const, hright, hfactor', mul_neg_one]
    exact zero_sub _
  · obtain ⟨hlt, htwoPow⟩ := fastLog2_of_hasOneBitSet hbit
    have hne : factor ≠ 0 := fun hfactor' => hzero (hfactor' ▸ BitVec.toInt_zero)
    generalize fastLog2 (factor.signExtend 64) = k at hlt htwoPow
    obtain ⟨hk, hfactor'⟩ := eq_twoPow_of_signExtend hne hlt htwoPow
    have hcnt : (BitVec.ofNat Width.int32.bits k).toNat % w.bits = k := by
      rw [BitVec.toNat_ofNat, Nat.mod_eq_of_lt (hlt.trans (by decide)), Nat.mod_eq_of_lt hk]
    rw [eval_identity, eval_shift, eval_const, ShiftOpcode.eval, hcnt, hright, hfactor',
      shiftLeft_eq_mul_twoPow]
  · exact eval_binary index .mul left right

theorem eval_reduceMul (hleft : left.InProcedure proc) (hright : right.InProcedure proc) :
    (reduceMul proc index left right).eval env = left.eval env * right.eval env := by
  obtain ⟨first, second, hord, -, -, heval⟩ :=
    handleCommutativity_spec (· * ·) mul_comm hleft hright
  have hproduct := heval env
  simp only [reduceMul, hord]
  rw [← hproduct]
  refine eval_folded (fun _ h => foldConstant_some_eq h env) ?_
  cases hfactor : second.asConstant with
  | some factor => exact eval_reduceMulByConstant index first second hfactor
  | none => exact eval_binary index .mul first second

/-- The quotient and the remainder of words, also where the quotient wraps around. -/
theorem sub_sdiv_mul (x y : BitVec w.bits) : x - x.sdiv y * y = x.srem y := by
  have hdiv : x.sdiv y = BitVec.ofInt _ (x.toInt.tdiv y.toInt) := by
    apply eq_of_toInt_eq
    rw [toInt_sdiv, toInt_ofInt]
  have hmod : x.srem y = BitVec.ofInt _ (x.toInt.tmod y.toInt) := by
    rw [← toInt_srem, ofInt_toInt]
  have hx : x = y * BitVec.ofInt _ (x.toInt.tdiv y.toInt) + BitVec.ofInt _ (x.toInt.tmod y.toInt) := by
    conv_lhs => rw [← ofInt_toInt (x := x), ← Int.mul_tdiv_add_tmod x.toInt y.toInt]
    rw [ofInt_add, ofInt_mul, ofInt_toInt]
  rw [← hdiv, ← hmod] at hx
  calc x - x.sdiv y * y = y * x.sdiv y + x.srem y - x.sdiv y * y := by rw [← hx]
    _ = x.srem y := by ring

/-- The remainder by a divisor other than zero. -/
theorem chillMod_eq (x : BitVec w.bits) {y : BitVec w.bits} (hy : y ≠ 0) :
    x - chillDiv x y * y = chillMod x y := by
  unfold chillDiv chillMod
  rw [if_neg hy, if_neg hy]
  split_ifs with hleast
  · rw [hleast.1, hleast.2, mul_neg_one, BitVec.neg_intMin, sub_self]
  · exact sub_sdiv_mul x y

theorem chillMod_eq_srem {y : BitVec w.bits} (h : ¬UndefinedDivision x y) :
    chillMod x y = x.srem y := by
  rw [UndefinedDivision, not_or] at h
  rw [chillMod, if_neg h.1, if_neg h.2]

/-- Where a remainder is defined it is kept, and the remainder that never traps always is. -/
theorem eval_reduceMod (opcode : RemainderOpcode) (left right : Value w)
    (h : opcode = .mod → ¬UndefinedDivision (left.eval env) (right.eval env)) :
    (reduceMod proc index opcode left right).eval env =
      opcode.opcode.eval env (left.eval env) (right.eval env) := by
  have hchill : opcode.opcode.eval env (left.eval env) (right.eval env) =
      chillMod (left.eval env) (right.eval env) := by
    cases opcode with
    | mod =>
      rw [chillMod_eq_srem (h rfl)]
      exact if_neg (h rfl)
    | chillMod => rfl
  unfold reduceMod
  refine eval_folded (fun _ hfold => hchill.trans (foldConstant_some_eq hfold env)) ?_
  cases hdivisor : right.asConstant with
  | none => exact eval_binary index _ left right
  | some divisor =>
    have hright : right.eval env = divisor := eval_of_asConstant hdivisor
    dsimp only
    split_ifs with hzero
    · have hright' : right.eval env = 0 :=
        hright.trans (eq_of_toInt_eq (hzero.trans toInt_zero.symm))
      rw [eval_identity, hchill, chillMod, if_pos hright', hright']
    · have hne : right.eval env ≠ 0 := fun heq => hzero (by rw [← hright, heq]; exact toInt_zero)
      rw [eval_identity, eval_binary, eval_binary, eval_binary]
      cases opcode with
      | mod =>
        have hquotient : BinaryOpcode.div.eval env (left.eval env) (right.eval env) =
            (left.eval env).sdiv (right.eval env) := if_neg (h rfl)
        rw [hchill, chillMod_eq_srem (h rfl), RemainderOpcode.divOpcode, hquotient]
        exact sub_sdiv_mul _ _
      | chillMod => exact chillMod_eq _ hne

theorem eval_of_isAllOnes (h : isAllOnes value) (env : Environment) : value.eval env = -1 := by
  cases w with
  | int64 => exact eval_of_isInt h (toInt_neg_one .int64) env
  | int32 =>
    have heval : (value.eval env).toInt = 0xffffffff := Value.toInt_eval_of_isInt h
    have hlt : (value.eval env).toInt < 2 ^ 31 := toInt_lt
    omega

theorem and_neg_one (x : BitVec w.bits) : x &&& -1 = x := by
  rw [show (-1 : BitVec w.bits) = BitVec.allOnes _ from neg_one_eq_allOnes, and_allOnes]

theorem or_neg_one (x : BitVec w.bits) : x ||| -1 = -1 := by
  rw [show (-1 : BitVec w.bits) = BitVec.allOnes _ from neg_one_eq_allOnes, or_allOnes]

theorem setWidth_setWidth_eq_and (x : BitVec 64) : (x.setWidth 32).setWidth 64 = x &&& 0xffffffff := by
  apply eq_of_toNat_eq
  have hmask : (0xffffffff : BitVec 64).toNat = 2 ^ 32 - 1 := rfl
  rw [toNat_and, hmask, Nat.and_two_pow_sub_one_eq_mod, toNat_setWidth, toNat_setWidth]
  omega

theorem eval_reduceBitAndOnes32 {result : Value w} {index : ℕ}
    (h : reduceBitAndOnes32 proc index left right = some result) :
    result.eval env = left.eval env &&& right.eval env := by
  cases w with
  | int32 => exact absurd h nofun
  | int64 =>
    simp only [reduceBitAndOnes32] at h
    split_ifs at h with hones
    have hright : right.eval env = (0xffffffff : BitVec 64) := eval_of_isInt hones (by rfl) env
    rw [← Option.some.inj h, eval_identity, eval, eval, hright]
    exact setWidth_setWidth_eq_and _

theorem getLsbD_eq_false_of_and {n i : ℕ} {mask bits : BitVec n} (hbits : bits.getLsbD i)
    (h : mask &&& bits = 0) : mask.getLsbD i = false := by
  have hbit : (mask &&& bits).getLsbD i = false := by rw [h]; simp
  rwa [getLsbD_and, hbits, Bool.and_true] at hbit

/-- A sign extension keeps the bits under a mask without the bits from the given position on. -/
theorem signExtend_and (x mask high : BitVec 32)
    (hhigh : ∀ i, k ≤ i → i < 32 → high.getLsbD i = true) (h : mask &&& high = 0) :
    (x.setWidth k).signExtend 32 &&& mask = x &&& mask := by
  apply eq_of_getLsbD_eq
  intro i hi
  rw [getLsbD_and, getLsbD_and, getLsbD_signExtend]
  by_cases hik : i < k
  · simp [hik, hi]
  · have hmask := getLsbD_eq_false_of_and (hhigh i (by omega) hi) h
    rw [hmask, Bool.and_false, Bool.and_false]

theorem eval_dropExtension {extended inner right : Value .int32} {high : BitVec 32}
    (hext : extended.eval env = ((inner.eval env).setWidth k).signExtend 32)
    (hhigh : ∀ i, k ≤ i → i < 32 → high.getLsbD i = true) :
    (match right.asConstant with
      | some mask => if mask &&& high = 0 then inner else extended
      | none => extended).eval env &&& right.eval env = extended.eval env &&& right.eval env := by
  cases hmask : right.asConstant with
  | none => rfl
  | some mask =>
    dsimp only
    split_ifs with hzero
    · rw [eval_of_asConstant hmask, hext]
      exact (signExtend_and _ mask high hhigh hzero).symm
    · rfl

theorem eval_dropSExt8 (left right : Value w) :
    (dropSExt8 left right).eval env &&& right.eval env = left.eval env &&& right.eval env := by
  cases left with
  | sExt8 extension inner => exact eval_dropExtension (by rw [eval]) (by decide)
  | _ => rfl

theorem eval_dropSExt16 (left right : Value w) :
    (dropSExt16 left right).eval env &&& right.eval env = left.eval env &&& right.eval env := by
  cases left with
  | sExt16 extension inner => exact eval_dropExtension (by rw [eval]) (by decide)
  | _ => rfl

theorem or_and_of_disjoint {bits mask : BitVec w.bits} (h : bits &&& mask = 0) :
    (x ||| bits) &&& mask = x &&& mask := by
  rw [BitVec.and_comm, BitVec.and_or_distrib_left, BitVec.and_comm mask bits, h, BitVec.and_comm mask x]
  exact BitVec.or_zero

theorem xor_and_of_disjoint {bits mask : BitVec w.bits} (h : bits &&& mask = 0) :
    (x ^^^ bits) &&& mask = x &&& mask := by
  apply eq_of_getLsbD_eq
  intro i _
  have hbit : (bits &&& mask).getLsbD i = false := by rw [h]; simp
  rw [getLsbD_and] at hbit
  rw [getLsbD_and, getLsbD_and, getLsbD_xor, Bool.and_xor_distrib_right, hbit, Bool.xor_false]

theorem eval_dropDisjointBits (left right : Value w) :
    (dropDisjointBits left right).eval env &&& right.eval env = left.eval env &&& right.eval env := by
  cases left with
  | binary index opcode inner constant1 =>
    cases hmask : right.asConstant with
    | none => simp only [dropDisjointBits, hmask]
    | some mask =>
      cases hbits : constant1.asConstant with
      | none => simp only [dropDisjointBits, hmask, hbits]
      | some bits =>
        simp only [dropDisjointBits, hmask, hbits]
        split_ifs with hdisj
        · rw [eval_binary, eval_of_asConstant hmask, eval_of_asConstant hbits]
          obtain ⟨rfl | rfl, hand⟩ := hdisj
          · exact (or_and_of_disjoint hand).symm
          · exact (xor_and_of_disjoint hand).symm
        · rfl
  | _ => rfl

theorem eval_reduceBitAnd (hleft : left.InProcedure proc) (hright : right.InProcedure proc) :
    (reduceBitAnd proc index left right).eval env = left.eval env &&& right.eval env := by
  obtain ⟨first, second, first', second', hord,
    (hassoc : reassociate proc .bitAnd bitAndConstant _ _ = _), heval, heval', hsame⟩ :=
    operands_spec .bitAnd (· &&& ·) (fun _ _ _ => rfl) BitVec.and_comm BitVec.and_assoc hleft hright
  simp only [reduceBitAnd, hord, hassoc]
  refine eval_folded (fun _ h => (heval env).symm.trans (foldConstant_some_eq h env)) ?_
  rw [← show first'.eval env &&& second'.eval env = left.eval env &&& right.eval env from heval' env]
  split_ifs with hidx hzero hones
  · rw [eval_identity, ← hsame hidx env, BitVec.and_self]
  · rw [eval_identity, eval_of_isInt_zero hzero]
    exact and_zero.symm
  · rw [eval_identity, eval_of_isAllOnes hones, and_neg_one]
  · cases hreduced : reduceBitAndOnes32 proc index first' second' with
    | some result => exact eval_reduceBitAndOnes32 hreduced
    | none =>
      rw [eval_binary]
      exact (eval_dropDisjointBits _ second').trans
        ((eval_dropSExt16 _ second').trans (eval_dropSExt8 first' second'))

theorem eval_reduceBitOr (hleft : left.InProcedure proc) (hright : right.InProcedure proc) :
    (reduceBitOr proc index left right).eval env = left.eval env ||| right.eval env := by
  obtain ⟨first, second, first', second', hord,
    (hassoc : reassociate proc .bitOr bitOrConstant _ _ = _), heval, heval', hsame⟩ :=
    operands_spec .bitOr (· ||| ·) (fun _ _ _ => rfl) BitVec.or_comm BitVec.or_assoc hleft hright
  simp only [reduceBitOr, hord, hassoc]
  refine eval_folded (fun _ h => (heval env).symm.trans (foldConstant_some_eq h env)) ?_
  rw [← show first'.eval env ||| second'.eval env = left.eval env ||| right.eval env from heval' env]
  split_ifs with hidx hzero hones
  · rw [eval_identity, ← hsame hidx env, BitVec.or_self]
  · rw [eval_identity, eval_of_isInt_zero hzero]
    exact or_zero.symm
  · rw [eval_identity, eval_of_isAllOnes hones, or_neg_one]
  · exact eval_binary index .bitOr first' second'

/-- The opposite comparison has the opposite outcome. -/
theorem eval_inverted (opcode : CompareOpcode) {n : ℕ} (x y : BitVec n) :
    opcode.inverted.eval x y = !opcode.eval x y := by
  rw [Bool.eq_iff_iff]
  cases opcode <;> simp [CompareOpcode.inverted, CompareOpcode.eval]

theorem ofBool_xor_one (b : Bool) : (BitVec.ofBool b).setWidth 32 ^^^ 1 = (BitVec.ofBool !b).setWidth 32 := by
  cases b <;> rfl

theorem eval_invertedCompare {left' : Value .int32} {inverted : Value .int32}
    (h : invertedCompare proc left' = some inverted) : inverted.eval env = left'.eval env ^^^ 1 := by
  cases left' with
  | compare index opcode a b =>
    rw [← Option.some.inj h, eval, eval, eval_inverted]
    exact (ofBool_xor_one _).symm
  | compareFloat index opcode a b =>
    obtain ⟨opcode', hopcode, rfl⟩ := Option.map_eq_some_iff.mp h
    rw [eval, eval]
    refine Eq.trans ?_ (ofBool_xor_one _).symm
    cases opcode with
    | equal =>
      rw [← Option.some.inj hopcode, env.compareFloat_notEqual]
    | notEqual =>
      rw [← Option.some.inj hopcode, env.compareFloat_notEqual, Bool.not_not]
    | _ => cases hopcode
  | _ => cases h

theorem eval_invertedCompareByOne {inverted : Value w}
    (h : invertedCompareByOne proc left right = some inverted) :
    inverted.eval env = left.eval env ^^^ right.eval env := by
  unfold invertedCompareByOne at h
  split_ifs at h with hone
  rw [eval_of_isInt hone (toInt_one w) env]
  cases w with
  | int32 => exact eval_invertedCompare h
  | int64 => cases left <;> exact absurd h nofun

theorem eval_reduceBitXor (hleft : left.InProcedure proc) (hright : right.InProcedure proc) :
    (reduceBitXor proc index left right).eval env = left.eval env ^^^ right.eval env := by
  obtain ⟨first, second, first', second', hord,
    (hassoc : reassociate proc .bitXor bitXorConstant _ _ = _), heval, heval', hsame⟩ :=
    operands_spec .bitXor (· ^^^ ·) (fun _ _ _ => rfl) BitVec.xor_comm BitVec.xor_assoc hleft hright
  simp only [reduceBitXor, hord, hassoc]
  refine eval_folded (fun _ h => (heval env).symm.trans (foldConstant_some_eq h env)) ?_
  rw [← show first'.eval env ^^^ second'.eval env = left.eval env ^^^ right.eval env from heval' env]
  cases hinverted : invertedCompareByOne proc first' second' with
  | some inverted =>
    rw [eval_identity, eval_invertedCompareByOne hinverted]
  | none =>
    split_ifs with hidx hzero
    · rw [eval_identity, eval_const, ← hsame hidx env, BitVec.xor_self]
      rfl
    · rw [eval_identity, eval_of_isInt_zero hzero]
      exact xor_zero.symm
    · exact eval_binary index .bitXor first' second'

/-- Masking an amount takes it modulo the width. -/
theorem toNat_and_width (w : Width) (amount : BitVec Width.int32.bits) :
    (amount &&& BitVec.ofNat _ (w.bits - 1)).toNat = amount.toNat % w.bits := by
  cases w with
  | int32 => exact (toNat_and _ _).trans (Nat.and_two_pow_sub_one_eq_mod amount.toNat 5)
  | int64 => exact (toNat_and _ _).trans (Nat.and_two_pow_sub_one_eq_mod amount.toNat 6)

theorem foldShift_eq {opcode : ShiftOpcode} {amount : Value .int32}
    (h : foldShift opcode left amount = some constant) (env : Environment) :
    opcode.eval (left.eval env) (amount.eval env).toNat = constant := by
  unfold foldShift at h
  cases hleft : left.asConstant with
  | none => simp [hleft] at h
  | some a =>
    cases hamt : amount.asConstant with
    | none => simp [hleft, hamt] at h
    | some k =>
      rw [eval_of_asConstant hleft, eval_of_asConstant hamt]
      rw [hleft, hamt] at h
      dsimp only at h
      rw [toNat_and_width] at h
      rw [← Option.some.inj h]
      cases opcode <;> rfl

theorem eval_dropAmountMask (w : Width) (amount : Value .int32) :
    ((dropAmountMask w amount).eval env).toNat % w.bits = (amount.eval env).toNat % w.bits := by
  cases amount with
  | binary index opcode inner mask =>
    cases opcode with
    | bitAnd =>
      simp only [dropAmountMask]
      cases hmask : mask.asConstant with
      | none => rfl
      | some constant =>
        dsimp only
        split_ifs with hlow
        · rw [eval_binary, eval_of_asConstant hmask, ← toNat_and_width, ← toNat_and_width]
          simp only [BinaryOpcode.eval]
          rw [BitVec.and_assoc, hlow]
        · rfl
    | _ => rfl
  | _ => rfl

theorem ShiftOpcode.eval_mod (x : BitVec w.bits) (amount : ℕ) :
    opcode.eval x (amount % w.bits) = opcode.eval x amount := by
  cases opcode <;> simp [ShiftOpcode.eval]

theorem ShiftOpcode.eval_zero (x : BitVec w.bits) : opcode.eval x 0 = x := by
  cases opcode <;> simp [ShiftOpcode.eval]

theorem eval_handleShiftAmount (left : Value w) (amount : Value .int32) :
    (handleShiftAmount index opcode left amount).eval env =
      opcode.eval (left.eval env) (amount.eval env).toNat := by
  unfold handleShiftAmount
  split_ifs with hzero
  · rw [eval_identity, eval_of_isInt_zero hzero]
    exact (opcode.eval_zero _).symm
  · rw [eval_shift, ← opcode.eval_mod, eval_dropAmountMask, opcode.eval_mod]

/-- The shifts to the left and the logical shifts to the right. -/
theorem eval_foldedShift (opcode : ShiftOpcode) (left : Value w) (amount : Value .int32) :
    (match foldShift opcode left amount with
      | some constant => .identity index (.const (proc.newIndex 0) constant)
      | none => handleShiftAmount index opcode left amount : Value w).eval env =
      opcode.eval (left.eval env) (amount.eval env).toNat :=
  eval_folded (fun _ h => foldShift_eq h env) (eval_handleShiftAmount index opcode left amount)

/-- A shift to the left and back keeps the low bits and extends their sign. -/
theorem sshiftRight_shiftLeft {n : ℕ} (x : BitVec n) {count : ℕ} (hk : 0 < k) (hn : k + count = n) :
    (x <<< count).sshiftRight count = (x.setWidth k).signExtend n := by
  apply eq_of_getLsbD_eq
  intro i hi
  rw [getLsbD_sshiftRight, getLsbD_signExtend]
  by_cases hik : i < k
  · have hlow : count + i < n := by omega
    simp [hi, hik, hlow]
  · have hhigh : ¬count + i < n := by omega
    have hmsb : n - 1 - count = k - 1 := by omega
    have hcnt : ¬n - 1 < count := by omega
    have hpos : 0 < n := by omega
    have hlast : k - 1 < n := by omega
    simp [hi, hi.not_ge, hik, hhigh, msb_eq_getLsbD_last, hmsb, hcnt, hpos, hk,
      getLsbD_eq_getElem hlast]

theorem eval_extensionForShift {value extension : Value w} {count : BitVec Width.int32.bits}
    (h : extensionForShift proc value count.toInt = some extension) :
    extension.eval env = sShr.eval (shl.eval (value.eval env) count.toNat)
      count.toNat := by
  cases w with
  | int32 =>
    simp only [extensionForShift] at h
    split_ifs at h with hsixteen htwentyfour
    · obtain rfl : count = 16 := eq_of_toInt_eq hsixteen
      rw [← Option.some.inj h, eval]
      exact (sshiftRight_shiftLeft _ (by decide) (by decide)).symm
    · obtain rfl : count = 24 := eq_of_toInt_eq htwentyfour
      rw [← Option.some.inj h, eval]
      exact (sshiftRight_shiftLeft _ (by decide) (by decide)).symm
  | int64 =>
    simp only [extensionForShift] at h
    split_ifs at h with hthirtytwo
    obtain rfl : count = 32 := eq_of_toInt_eq hthirtytwo
    rw [← Option.some.inj h, eval, eval]
    exact (sshiftRight_shiftLeft _ (by decide) (by decide)).symm

theorem eval_reduceShiftBack {amount : Value .int32} {extension : Value w}
    (h : reduceShiftBack proc left amount = some extension) :
    extension.eval env = sShr.eval (left.eval env) (amount.eval env).toNat := by
  cases left with
  | shift index opcode inner innerAmount =>
    cases opcode with
    | shl =>
      simp only [reduceShiftBack] at h
      cases hamt : amount.asConstant with
      | none => simp [hamt] at h
      | some outerCount =>
        cases hinner : innerAmount.asConstant with
        | none => simp [hamt, hinner] at h
        | some innerCount =>
          simp only [hamt, hinner] at h
          split_ifs at h with hsame
          rw [eval_extensionForShift h, eval_shift, eval_of_asConstant hamt,
            eval_of_asConstant hinner, hsame]
    | _ => exact absurd h nofun
  | _ => exact absurd h nofun

theorem eval_reduceSShr (left : Value w) (amount : Value .int32) :
    (reduceSShr proc index left amount).eval env =
      sShr.eval (left.eval env) (amount.eval env).toNat := by
  unfold reduceSShr
  refine eval_folded (fun _ h => foldShift_eq h env) ?_
  cases hback : reduceShiftBack proc left amount with
  | some extension =>
    rw [eval_identity, eval_reduceShiftBack hback]
  | none => exact eval_handleShiftAmount index .sShr left amount

end Spec

section ExtensionSpec

variable {proc : Procedure} {env : Environment} (index : ℕ)

theorem eval_trunc (child : Value .int64) :
    (Value.trunc index child).eval env = (child.eval env).setWidth 32 := by rw [eval]

variable (child : Value .int32)

theorem eval_of_asMasked {w : Width} {child input : Value w} {mask : BitVec w.bits}
    (h : asMasked child = some (input, mask)) (env : Environment) :
    child.eval env = input.eval env &&& mask := by
  cases child with
  | binary index opcode left right =>
    cases opcode with
    | bitAnd =>
      obtain ⟨constant, hconst, heq⟩ := Option.map_eq_some_iff.mp h
      cases heq
      rw [eval_binary, eval_of_asConstant hconst]
      rfl
    | _ => exact absurd h nofun
  | _ => exact absurd h nofun

section Masks

variable {k : ℕ} {x mask low sign rest : BitVec 32}

/-- A mask with all low bits does not change them. -/
theorem setWidth_and_of_low (hlow : ∀ i < k, low.getLsbD i = true) (h : mask &&& low = low) :
    (x &&& mask).setWidth k = x.setWidth k := by
  apply eq_of_getLsbD_eq
  intro i hi
  have hbit : (mask &&& low).getLsbD i = true := by rw [h, hlow i hi]
  rw [getLsbD_and, hlow i hi, Bool.and_true] at hbit
  rw [getLsbD_setWidth, getLsbD_setWidth, getLsbD_and, hbit, Bool.and_true]

/-- Without the sign bit, the extension of the low bits is zero. -/
theorem signExtend_and_of_sign (hk : 0 < k) (hsign : sign.getLsbD (k - 1))
    (hrest : ∀ i < 32, rest.getLsbD i = decide (i < k - 1)) (h : mask &&& sign = 0) :
    ((x &&& mask).setWidth k).signExtend 32 = x &&& (mask &&& rest) := by
  have hbit := getLsbD_eq_false_of_and hsign h
  apply eq_of_getLsbD_eq
  intro i hi
  rw [getLsbD_signExtend, getLsbD_and, getLsbD_and, hrest i hi]
  by_cases hik : i < k
  · rw [if_pos hik, getLsbD_setWidth, getLsbD_and]
    rcases Nat.lt_or_ge i (k - 1) with hlt | hge
    · simp [hi, hik, hlt]
    · have heq : i = k - 1 := by omega
      rw [heq, hbit]
      simp
  · have hhigh : ¬i < k - 1 := by omega
    rw [if_neg hik, msb_eq_getLsbD_last, getLsbD_setWidth, getLsbD_and, hbit]
    simp [hhigh]

/-- The low bits of a sign extension from at least as many bits. -/
theorem setWidth_signExtend {m : ℕ} (hkm : k ≤ m) (hm : m ≤ 32) :
    ((x.setWidth m).signExtend 32).setWidth k = x.setWidth k := by
  apply eq_of_getLsbD_eq
  intro i hi
  rw [getLsbD_setWidth, getLsbD_setWidth, getLsbD_signExtend, getLsbD_setWidth]
  have him : i < m := by omega
  have hi32 : i < 32 := by omega
  simp [him, hi32]

/-- A second extension from more bits changes nothing. -/
theorem signExtend_signExtend {m : ℕ} (hk : 0 < k) (hkm : k < m) (hm : m ≤ 32) :
    (((x.setWidth k).signExtend 32).setWidth m).signExtend 32 = (x.setWidth k).signExtend 32 := by
  apply eq_of_getLsbD_eq
  intro i hi
  rw [getLsbD_signExtend]
  by_cases him : i < m
  · rw [if_pos him, getLsbD_setWidth]
    simp [hi, him]
  · have hik : ¬i < k := by omega
    have hmk : ¬m - 1 < k := by omega
    have hm1 : m - 1 < m := by omega
    have hm32 : m - 1 < 32 := by omega
    rw [if_neg him, msb_eq_getLsbD_last, getLsbD_setWidth, getLsbD_signExtend,
      getLsbD_signExtend, if_neg hik, if_neg hmk]
    simp [hi, hm1, hm32]

theorem eval_reduceExtensionOfMasked (index : ℕ) {extend : Value .int32 → Value .int32}
    (hext : ∀ value, (extend value).eval env = ((value.eval env).setWidth k).signExtend 32)
    (hk : 0 < k) (hlow : ∀ i < k, low.getLsbD i) (hsign : sign.getLsbD (k - 1))
    (hrest : ∀ i < 32, rest.getLsbD i = decide (i < k - 1)) (child : Value .int32) :
    (reduceExtensionOfMasked proc index extend low sign rest child).eval env =
      ((child.eval env).setWidth k).signExtend 32 := by
  unfold reduceExtensionOfMasked
  cases hmsk : asMasked child with
  | none => exact hext child
  | some masked =>
    rw [eval_of_asMasked hmsk]
    dsimp only
    split_ifs with hall hzero
    · rw [hext]
      exact congrArg (BitVec.signExtend 32) (setWidth_and_of_low hlow hall).symm
    · rw [eval_identity, eval_binary, eval_const]
      exact (signExtend_and_of_sign hk hsign hrest hzero).symm
    · rw [hext, eval_of_asMasked hmsk]

end Masks

theorem eval_reduceSExt8 :
    (reduceSExt8 proc index child).eval env = ((child.eval env).setWidth 8).signExtend 32 := by
  have hmsk : ∀ value, (reduceExtensionOfMasked proc index (.sExt8 index) 0xff 0x80 0x7f value).eval env =
      ((value.eval env).setWidth 8).signExtend 32 :=
    eval_reduceExtensionOfMasked index (fun value => by rw [eval]) (by decide) (by decide)
      (by decide) (by decide)
  unfold reduceSExt8
  cases hconst : child.asConstant with
  | some constant =>
    rw [eval_identity, eval_const, eval_of_asConstant hconst]
  | none =>
    cases child with
    | sExt8 extension value =>
      refine (hmsk value).trans ?_
      rw [eval, setWidth_signExtend le_rfl (by norm_num)]
    | sExt16 extension value =>
      refine (hmsk value).trans ?_
      rw [eval, setWidth_signExtend (by norm_num) (by norm_num)]
    | _ => exact hmsk _

theorem eval_reduceInnerSExt16 :
    (reduceInnerSExt16 proc index child).eval env = ((child.eval env).setWidth 16).signExtend 32 := by
  have hmsk : ∀ value,
      (reduceExtensionOfMasked proc index (.sExt16 index) 0xffff 0x8000 0x7fff value).eval env =
        ((value.eval env).setWidth 16).signExtend 32 :=
    eval_reduceExtensionOfMasked index (fun value => by rw [eval]) (by decide) (by decide)
      (by decide) (by decide)
  cases child with
  | sExt8 extension value =>
    simp only [reduceInnerSExt16]
    rw [eval_identity, eval, signExtend_signExtend (by norm_num) (by norm_num) (by norm_num)]
  | _ =>
    simp only [reduceInnerSExt16]
    exact hmsk _

theorem eval_reduceSExt16 :
    (reduceSExt16 proc index child).eval env = ((child.eval env).setWidth 16).signExtend 32 := by
  unfold reduceSExt16
  cases hconst : child.asConstant with
  | some constant =>
    rw [eval_identity, eval_const, eval_of_asConstant hconst]
  | none =>
    cases child with
    | sExt16 extension value =>
      refine (eval_reduceInnerSExt16 index value).trans ?_
      rw [eval, setWidth_signExtend le_rfl (by norm_num)]
    | _ => exact eval_reduceInnerSExt16 index _

theorem eval_reduceSExt32 :
    (reduceSExt32 proc index child).eval env = (child.eval env).signExtend 64 := by
  unfold reduceSExt32
  cases hconst : child.asConstant with
  | some constant =>
    rw [eval_identity, eval_const, eval_of_asConstant hconst]
  | none =>
    cases hmsk : asMasked child with
    | none =>
      rw [eval]
    | some masked =>
      dsimp only
      split_ifs with hsign
      · have hmask : masked.2.getLsbD 31 = false := getLsbD_eq_false_of_and (by rfl) hsign
        have hchild := eval_of_asMasked hmsk env
        have hmsb : (child.eval env).msb = false := by
          rw [hchild, msb_eq_getLsbD_last, getLsbD_and]
          exact Bool.and_eq_false_imp.mpr fun _ => hmask
        rw [eval_identity, eval, signExtend_eq_setWidth_of_msb_false hmsb]
      · rw [eval]

theorem eval_reduceZExt32 :
    (reduceZExt32 proc index child).eval env = (child.eval env).setWidth 64 := by
  unfold reduceZExt32
  cases hconst : child.asConstant with
  | some constant =>
    rw [eval_identity, eval_const, eval_of_asConstant hconst]
  | none =>
    rw [eval]

/-- The low half of a sum or difference does not depend on the high half of an operand. -/
theorem eval_dropHighOperation (child : Value .int64) :
    ((dropHighOperation child).eval env).setWidth 32 = (child.eval env).setWidth 32 := by
  cases child with
  | binary index opcode value constant =>
    simp only [dropHighOperation]
    cases hconst : constant.asConstant with
    | none => rfl
    | some bits =>
      dsimp only
      split_ifs with hdrop
      · obtain ⟨hopcode, hbits⟩ := hdrop
        have hlow : bits.setWidth 32 = 0 := by
          have hback := congrArg (BitVec.setWidth 32) ((setWidth_setWidth_eq_and bits).trans hbits)
          simpa using hback
        rw [eval_binary, eval_of_asConstant hconst]
        rcases hopcode with rfl | rfl | rfl | rfl <;> simp only [BinaryOpcode.eval]
        · rw [setWidth_add _ _ (by norm_num), hlow, add_zero]
        · rw [sub_eq_add_neg, setWidth_add _ _ (by norm_num), setWidth_neg_of_le (by norm_num), hlow,
            neg_zero, add_zero]
        · rw [setWidth_or, hlow]
          exact or_zero.symm
        · rw [setWidth_xor, hlow]
          exact xor_zero.symm
      · rfl
  | _ => rfl

theorem eval_reduceTrunc (child : Value .int64) :
    (reduceTrunc proc index child).eval env = (child.eval env).setWidth 32 := by
  unfold reduceTrunc
  cases hconst : child.asConstant with
  | some constant =>
    rw [eval_identity, eval_const, eval_of_asConstant hconst]
  | none =>
    cases child with
    | sExt32 extension value =>
      rw [eval_identity, eval]
      apply eq_of_getLsbD_eq
      intro i hi
      have hi32 : i < 32 := hi
      have hi64 : i < 64 := by omega
      rw [getLsbD_setWidth, getLsbD_signExtend]
      simp [hi32, hi64]
    | zExt32 extension value =>
      rw [eval_identity, eval, setWidth_setWidth_of_le _ (by norm_num), setWidth_eq]
    | _ =>
      rw [eval_trunc, eval_dropHighOperation]

end ExtensionSpec

/-- The result of a value is defined: it is not a remainder that may be anything. -/
def Value.Defined (env : Environment) {w : Width} : Value w → Prop
  | .binary _ .mod left right => ¬UndefinedDivision (left.eval env) (right.eval env)
  | _ => True

/-- One application of the reduction keeps the machine word of a value. -/
theorem eval_reduceValueStrength (proc : Procedure) (env : Environment) {w : Width} (value : Value w)
    (h : value.InProcedure proc) (hdefined : value.Defined env) :
    (reduceValueStrength proc value).eval env = value.eval env := by
  cases value with
  | neg index child => exact (eval_reduceNeg index child).trans (eval_neg index child).symm
  | sExt8 index child => exact (eval_reduceSExt8 index child).trans (by rw [eval])
  | sExt16 index child => exact (eval_reduceSExt16 index child).trans (by rw [eval])
  | sExt32 index child => exact (eval_reduceSExt32 index child).trans (by rw [eval])
  | zExt32 index child => exact (eval_reduceZExt32 index child).trans (by rw [eval])
  | trunc index child => exact (eval_reduceTrunc index child).trans (by rw [eval])
  | binary index opcode left right =>
    rw [eval_binary]
    cases opcode with
    | add => exact eval_reduceAdd index h.2.1 h.2.2
    | sub => exact eval_reduceSub index left right
    | mul => exact eval_reduceMul index h.2.1 h.2.2
    | mod => exact eval_reduceMod index .mod left right fun _ => hdefined
    | chillMod => exact eval_reduceMod index .chillMod left right (by simp)
    | bitAnd => exact eval_reduceBitAnd index h.2.1 h.2.2
    | bitOr => exact eval_reduceBitOr index h.2.1 h.2.2
    | bitXor => exact eval_reduceBitXor index h.2.1 h.2.2
    | _ => exact eval_binary index _ left right
  | shift index opcode left amount =>
    rw [eval_shift]
    cases opcode with
    | shl => exact eval_foldedShift index .shl left amount
    | sShr => exact eval_reduceSShr index left amount
    | zShr => exact eval_foldedShift index .zShr left amount
  | _ => rfl

def lowByte : Value .int32 := .binary 3 .bitAnd (.sExt8 2 (.leaf 0)) (.const 1 255)

def lowByteProcedure : Procedure where
  value index := match index with
    | 0 => some ⟨.int32, .leaf 0⟩
    | 1 => some ⟨.int32, .const 1 255⟩
    | 2 => some ⟨.int32, .sExt8 2 (.leaf 0)⟩
    | 3 => some ⟨.int32, lowByte⟩
    | _ + 4 => none
  newIndex k := k + 4
  newIndex_unused _ := rfl

theorem eval_reduceValueStrength_lowByte :
    reduceValueStrength lowByteProcedure lowByte = .binary 3 .bitAnd (.leaf 0) (.const 1 255) ∧
      (reduceValueStrength lowByteProcedure lowByte).eval (constantEnvironment 0x180) =
        lowByte.eval (constantEnvironment 0x180) :=
  ⟨rfl, eval_reduceValueStrength lowByteProcedure (constantEnvironment 0x180) lowByte
    ⟨rfl, ⟨rfl, rfl⟩, rfl⟩ trivial⟩

end WebKit.B3
