import WebKit.Foundation.LittleEndian

/-!
Content extension rules and the bytes an action is stored in. A CSS selector is written as
its type, its length, a width flag and its characters, eight or sixteen bits each; every
other action is one byte. Reading a stored action back gives its type and its characters.
-/
namespace WebKit.ContentExtensions

open List LittleEndian

structure WTFString where
  is8Bit : Bool
  characters : List UInt16
  narrow : is8Bit = true → ∀ c ∈ characters, c.toNat < 256

inductive ActionType where
  | blockLoad
  | blockCookies
  | cssDisplayNoneSelector
  | cssDisplayNoneStyleSheet
  | ignorePreviousRules
  | makeHTTPS
  | invalidAction
  deriving DecidableEq, Repr

namespace ActionType

def toByte : ActionType → UInt8
  | blockLoad => 0
  | blockCookies => 1
  | cssDisplayNoneSelector => 2
  | cssDisplayNoneStyleSheet => 3
  | ignorePreviousRules => 4
  | makeHTTPS => 5
  | invalidAction => 6

end ActionType

inductive DomainCondition where
  | none
  | ifDomain
  | unlessDomain
  deriving DecidableEq, Repr

structure Trigger where
  urlFilter : List UInt16
  urlFilterIsCaseSensitive : Bool
  flags : ℕ
  domains : List (List UInt16)
  domainCondition : DomainCondition
  deriving DecidableEq

structure ContentExtensionRule where
  trigger : Trigger
  actionType : ActionType
  stringArgument : WTFString
  parsed : actionType ≠ .cssDisplayNoneStyleSheet ∧ actionType ≠ .invalidAction

structure Action where
  type : ActionType
  stringArgument : List UInt16
  actionID : ℕ
  deriving DecidableEq

def serializeCharacters (selector : WTFString) : List UInt8 :=
  if selector.is8Bit then selector.characters.map UInt16.toUInt8
  else selector.characters.flatMap fun c => encode 2 c.toNat

def serializeSelector (selector : WTFString) : List UInt8 :=
  ActionType.cssDisplayNoneSelector.toByte ::
    (encode 4 selector.characters.length ++
      (if selector.is8Bit then 0 else 1) :: serializeCharacters selector)

def serializeAction (type : ActionType) (stringArgument : WTFString) : List UInt8 :=
  if type = .cssDisplayNoneSelector then serializeSelector stringArgument else [type.toByte]

def readWide : ℕ → List UInt8 → List UInt16
  | 0, _ => []
  | n + 1, bytes => UInt16.ofNat (decode (bytes.take 2)) :: readWide n (bytes.drop 2)

/-- `Action::deserialize`; a failed release assertion is `none`. -/
def deserialize (actions : List UInt8) (location : ℕ) : Option Action :=
  match actions[location]? with
  | none => none
  | some byte =>
    if byte = ActionType.blockCookies.toByte then some ⟨.blockCookies, [], location⟩
    else if byte = ActionType.blockLoad.toByte then some ⟨.blockLoad, [], location⟩
    else if byte = ActionType.ignorePreviousRules.toByte then
      some ⟨.ignorePreviousRules, [], location⟩
    else if byte = ActionType.makeHTTPS.toByte then some ⟨.makeHTTPS, [], location⟩
    else if byte = ActionType.cssDisplayNoneSelector.toByte then
      let stringStartIndex := (location + (1 + 4 + 1)) % 2 ^ 32
      if actions.length < stringStartIndex then none
      else
        let selectorLength := decode ((actions.drop (location + 1)).take 4)
        if actions[location + 1 + 4]? ≠ some 0 then
          if actions.length < stringStartIndex + selectorLength * 2 then none
          else some ⟨.cssDisplayNoneSelector,
            readWide selectorLength (actions.drop stringStartIndex), location⟩
        else
          if actions.length < stringStartIndex + selectorLength then none
          else some ⟨.cssDisplayNoneSelector,
            ((actions.drop stringStartIndex).take selectorLength).map UInt8.toUInt16, location⟩
    else none

theorem length_serializeSelector (selector : WTFString) :
    (serializeSelector selector).length = 6 + (serializeCharacters selector).length := by
  simp [serializeSelector]
  omega

theorem length_serializeAction_pos (type : ActionType) (stringArgument : WTFString) :
    0 < (serializeAction type stringArgument).length := by
  unfold serializeAction
  split
  · simp [length_serializeSelector]
  · simp

theorem length_serializeCharacters (selector : WTFString) : (serializeCharacters selector).length =
      if selector.is8Bit then selector.characters.length else selector.characters.length * 2 := by
  unfold serializeCharacters
  split
  · simp
  · induction selector.characters with
    | nil => rfl
    | cons c rest ih => simp [ih, Nat.add_mul, add_comm]

theorem readWide_encode (characters : List UInt16) (rest : List UInt8) : readWide characters.length
      ((characters.flatMap fun c => encode 2 c.toNat) ++ rest) = characters := by
  induction characters with
  | nil => rfl
  | cons c characters ih =>
    have hlen := length_encode 2 c.toNat
    have hval : decode (encode 2 c.toNat) = c.toNat :=
      decode_encode c.toNat_lt
    rw [flatMap_cons, append_assoc, length_cons, readWide,
      take_left' hlen, drop_left' hlen, hval, ih, UInt16.ofNat_toNat]

theorem toUInt16_toUInt8 (c : UInt16) (h : c.toNat < 256) : c.toUInt8.toUInt16 = c := by
  apply UInt16.toNat_inj.mp
  simp only [UInt8.toNat_toUInt16, UInt16.toNat_toUInt8]
  omega

variable (before after : List UInt8)

/-- The header of a stored selector, where it starts and what stands behind it. -/
theorem header_eq (selector : WTFString) : let actions := before ++ serializeSelector selector ++ after
    actions[before.length]? = some ActionType.cssDisplayNoneSelector.toByte ∧
      (actions.drop (before.length + 1)).take 4 = encode 4 selector.characters.length ∧
      actions[before.length + 1 + 4]? = some (if selector.is8Bit then 0 else 1) ∧
      actions.drop (before.length + 6) = serializeCharacters selector ++ after := by
  intro actions
  have hlen := length_encode 4 selector.characters.length
  have hdrop : actions.drop before.length = ActionType.cssDisplayNoneSelector.toByte ::
      (encode 4 selector.characters.length ++
        (if selector.is8Bit then 0 else 1) :: (serializeCharacters selector ++ after)) := by
    simp [actions, serializeSelector]
  have hnext : actions.drop (before.length + 1) = encode 4 selector.characters.length ++
        (if selector.is8Bit then 0 else 1) :: (serializeCharacters selector ++ after) := by
    rw [← drop_drop, hdrop, drop_one, tail_cons]
  have hflag : actions.drop (before.length + 1 + 4) =
      (if selector.is8Bit then 0 else 1) :: (serializeCharacters selector ++ after) := by
    rw [← drop_drop, hnext, drop_left' hlen]
  refine ⟨?_, ?_, ?_, ?_⟩
  · rw [← add_zero before.length, ← getElem?_drop, hdrop, getElem?_cons_zero]
  · rw [hnext, take_left' hlen]
  · rw [← add_zero (before.length + 1 + 4), ← getElem?_drop, hflag, getElem?_cons_zero]
  · rw [show before.length + 6 = before.length + 1 + 4 + 1 by omega, ← drop_drop, hflag,
      drop_one, tail_cons]

/-- A selector stored anywhere is read back. -/
theorem deserialize_serializeSelector (selector : WTFString)
    (hsize : (before ++ serializeSelector selector ++ after).length < 2 ^ 32) :
    deserialize (before ++ serializeSelector selector ++ after) before.length =
      some ⟨.cssDisplayNoneSelector, selector.characters, before.length⟩ := by
  obtain ⟨htype, hlen, hflag, hrest⟩ := header_eq before after selector
  have htotal : (before ++ serializeSelector selector ++ after).length =
      before.length + 6 + (serializeCharacters selector).length + after.length := by
    rw [length_append, length_append, length_serializeSelector]
    omega
  have hchars := length_serializeCharacters selector
  have hstart : (before.length + (1 + 4 + 1)) % 2 ^ 32 = before.length + 6 := by
    rw [Nat.mod_eq_of_lt (by omega)]
  have hdec : decode (encode 4 selector.characters.length) = selector.characters.length := by
    apply decode_encode
    split at hchars <;> omega
  simp only [deserialize, htype, hlen, hflag, hstart, hdec, hrest]
  rw [if_neg (by decide), if_neg (by decide), if_neg (by decide), if_neg (by decide),
    if_pos trivial, if_neg (by omega)]
  cases hwidth : selector.is8Bit with
  | true =>
    simp only [hwidth, if_true] at hchars ⊢
    rw [if_neg (by simp), if_neg (by omega), take_left' hchars]
    have hback : (serializeCharacters selector).map UInt8.toUInt16 = selector.characters := by
      simp only [serializeCharacters, hwidth, if_true, map_map]
      conv_rhs => rw [← map_id selector.characters]
      exact map_congr_left fun c hc => toUInt16_toUInt8 c (selector.narrow hwidth c hc)
    rw [hback]
  | false =>
    simp only [hwidth, Bool.false_eq_true, if_false] at hchars ⊢
    rw [if_pos (by simp), if_neg (by omega)]
    simp only [serializeCharacters, hwidth, Bool.false_eq_true, if_false, readWide_encode]

/-- A stored action is read back, wherever it was appended. -/
theorem deserialize_serializeAction (rule : ContentExtensionRule)
    (hsize : (before ++ serializeAction rule.actionType rule.stringArgument ++ after).length <
      2 ^ 32) :
    deserialize (before ++ serializeAction rule.actionType rule.stringArgument ++ after)
        before.length =
      some ⟨rule.actionType,
        if rule.actionType = .cssDisplayNoneSelector then rule.stringArgument.characters else [],
        before.length⟩ := by
  by_cases hcss : rule.actionType = .cssDisplayNoneSelector
  · simp only [serializeAction, if_pos hcss] at hsize ⊢
    rw [hcss, deserialize_serializeSelector before after rule.stringArgument hsize]
  · obtain ⟨hsheet, hinvalid⟩ := rule.parsed
    have hfst : (before ++ [rule.actionType.toByte] ++ after)[before.length]? =
        some rule.actionType.toByte := by simp
    simp only [serializeAction, if_neg hcss, deserialize, hfst]
    cases htype : rule.actionType <;> simp_all [ActionType.toByte]

end WebKit.ContentExtensions
