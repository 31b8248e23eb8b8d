import Lsl.Assembly.Sequence
import Mathlib.Algebra.Ring.Int.Defs

/-! Integer operators in assembly text. The target works on a stack of words of 32 bits, and the text of an
operator leaves the operator's value in the place of its operands. The exception is the conjunction of truth
values: its text takes the bits that two integers have in common, and two true ones may have none. -/
namespace Lsl

variable {a b : Int32}

/-- The integer that stands for a truth value. -/
def truthValue (p : Prop) [Decidable p] : Int32 := if p then 1 else 0

theorem truthValue_inj {p q : Prop} [Decidable p] [Decidable q] :
    truthValue p = truthValue q ↔ (p ↔ q) := by
  have hNe : (1 : Int32) ≠ 0 := by decide
  by_cases hp : p <;> by_cases hq : q <;> simp [truthValue, hp, hq, hNe, hNe.symm]

/-- A test for zero turns a truth value round. -/
theorem truthValue_eq_zero (p : Prop) [Decidable p] : truthValue (truthValue p = 0) = truthValue ¬ p := by
  by_cases hp : p <;> simp [truthValue, hp]

namespace Operator

/-- The value of an operator on two integers. Arithmetic wraps, division is truncated, a right shift keeps the
sign, and any integer but zero is true. -/
def integerValue (a b : Int32) : Operator → Int32
  | add => .ofInt (a.toInt + b.toInt)
  | sub => .ofInt (a.toInt - b.toInt)
  | mul => .ofInt (a.toInt * b.toInt)
  | div => .ofInt (a.toInt.tdiv b.toInt)
  | mod => .ofInt (a.toInt.tmod b.toInt)
  | eq => truthValue (a.toInt = b.toInt)
  | neq => truthValue (a.toInt ≠ b.toInt)
  | leq => truthValue (a.toInt ≤ b.toInt)
  | geq => truthValue (b.toInt ≤ a.toInt)
  | less => truthValue (a.toInt < b.toInt)
  | greater => truthValue (b.toInt < a.toInt)
  | bitAnd => a &&& b
  | bitOr => a ||| b
  | bitXor => a ^^^ b
  | boolAnd => truthValue (a ≠ 0 ∧ b ≠ 0)
  | boolOr => truthValue (a ≠ 0 ∨ b ≠ 0)
  | shl => .ofInt (a.toInt * 2 ^ b.toInt.toNat)
  | shr => .ofInt (a.toInt / 2 ^ b.toInt.toNat)
  | _ => 0

def unaryIntegerValue (a : Int32) : Operator → Int32
  | neg => .ofInt (-a.toInt)
  | bitNot => .ofInt (-a.toInt - 1)
  | boolNot => truthValue (a = 0)
  | _ => 0

end Operator

def divides (a b : Int32) : Bool := b ≠ 0 ∧ ¬ (a = .minValue ∧ b = -1)

def shifts (b : Int32) : Bool := 0 ≤ b.toInt ∧ b.toInt < 32

def Operator.definedOn (a b : Int32) : Operator → Bool
  | div | mod => divides a b
  | shl | shr => shifts b
  | _ => true

namespace Assembly

/-- What an instruction makes of the stack, whose top comes first. A quotient without a place raises an
exception, and the results of other shifts are left open. -/
def perform : String → List Int32 → Option (List Int32)
  | "ldc.i4.0", st => some (0 :: st)
  | "neg", a :: st => some (-a :: st)
  | "not", a :: st => some (~~~a :: st)
  | "add", b :: a :: st => some ((a + b) :: st)
  | "sub", b :: a :: st => some ((a - b) :: st)
  | "mul", b :: a :: st => some (a * b :: st)
  | "div", b :: a :: st => if divides a b then some (a / b :: st) else none
  | "rem", b :: a :: st => if divides a b then some (a % b :: st) else none
  | "and", b :: a :: st => some ((a &&& b) :: st)
  | "or", b :: a :: st => some ((a ||| b) :: st)
  | "xor", b :: a :: st => some ((a ^^^ b) :: st)
  | "shl", b :: a :: st => if shifts b then some (a <<< b :: st) else none
  | "shr", b :: a :: st => if shifts b then some (a >>> b :: st) else none
  | "ceq", b :: a :: st => some (truthValue (a = b) :: st)
  | "clt", b :: a :: st => some (truthValue (a < b) :: st)
  | "cgt", b :: a :: st => some (truthValue (b < a) :: st)
  | "cgt.un", b :: a :: st => some (truthValue (b.toUInt32 < a.toUInt32) :: st)
  | _, _ => none

def performAll (lines : List String) (stack : List Int32) : Option (List Int32) :=
  lines.foldlM (fun st line => perform line st) stack

theorem performAll_singleton (line : String) (stack : List Int32) :
    performAll [line] stack = perform line stack := by
  simp [performAll]

end Assembly

namespace Int32

/-- A count from 0 to 31 is the number of bits by which the word is shifted. -/
theorem shift_count (h : shifts b = true) : (b.toBitVec.smod 32).toNat = b.toInt.toNat := by
  obtain ⟨hLow, hHigh⟩ := of_decide_eq_true h
  have hMod : (b.toBitVec.smod 32).toInt = b.toInt := by
    rw [BitVec.toInt_smod, Int32.toInt_toBitVec]
    exact Int.fmod_eq_of_lt hLow hHigh
  have hNat := BitVec.toInt_eq_toNat_cond (b.toBitVec.smod 32)
  omega

theorem ofInt_two_pow (n : Nat) : BitVec.ofInt 32 (2 ^ n) = BitVec.twoPow 32 n := by
  rw [show (2 : Int) ^ n = ((2 ^ n : Nat) : Int) by simp, BitVec.ofInt_natCast]
  apply BitVec.eq_of_toNat_eq
  simp [BitVec.toNat_twoPow]

theorem shiftLeft_eq (h : shifts b = true) : a <<< b = .ofInt (a.toInt * 2 ^ b.toInt.toNat) := by
  rw [← Int32.toBitVec_inj, Int32.toBitVec_shiftLeft, BitVec.shiftLeft_eq', shift_count h,
    BitVec.shiftLeft_eq_mul_twoPow, Int32.toBitVec_ofInt, BitVec.ofInt_mul, BitVec.ofInt_int32ToInt,
      ofInt_two_pow]

theorem shiftRight_eq (h : shifts b = true) : a >>> b = .ofInt (a.toInt / 2 ^ b.toInt.toNat) := by
  have hInt : (a >>> b).toInt = a.toInt / 2 ^ b.toInt.toNat := by
    rw [← Int32.toInt_toBitVec, Int32.toBitVec_shiftRight, BitVec.sshiftRight_eq', shift_count h,
      BitVec.toInt_sshiftRight, Int.shiftRight_eq_div_pow]
    simp
  rw [← hInt, Int32.ofInt_toInt]

/-- As an unsigned number, every integer but zero is larger than zero. -/
theorem zero_lt_unsigned (a : Int32) : (0 : Int32).toUInt32 < a.toUInt32 ↔ a ≠ 0 := by
  have hZero : a = 0 ↔ a.toUInt32.toNat = 0 := by
    cases a
    exact (Int32.ofUInt32.injEq ..).to_iff.trans UInt32.toNat_inj.symm
  rw [UInt32.lt_iff_toNat_lt, Ne, hZero]
  exact Nat.pos_iff_ne_zero

end Int32

namespace Assembly

/-- The conjunction of truth values as it is written: whether two integers have a bit in common. -/
theorem boolAnd_performs (a b : Int32) (stack : List Int32) :
    performAll (binary .boolAnd .integer .integer) (b :: a :: stack) =
      some (truthValue (a &&& b ≠ 0) :: stack) := by
  have hTest := truthValue_inj.mpr (Int32.zero_lt_unsigned (a &&& b))
  exact congrArg (fun v => some (v :: stack)) hTest

/-- The text of every other operator on two integers leaves the operator's value. -/
theorem binary_performs {op : Operator} {t : Ty} (hLegal : op.binaryResult? .integer .integer = some t)
    (hDefined : op.definedOn a b = true) (hOp : op ≠ .boolAnd) (stack : List Int32) :
    performAll (binary op .integer .integer) (b :: a :: stack) = some (op.integerValue a b :: stack) := by
  have hValue : ∀ v w : Int32, v = w → some (v :: stack) = some (w :: stack) := fun _ _ h => by rw [h]
  cases op with
  | add =>
    exact hValue _ _ (by rw [Operator.integerValue, Int32.ofInt_add, Int32.ofInt_toInt, Int32.ofInt_toInt])
  | sub =>
    exact hValue _ _ (by rw [Operator.integerValue, Int32.ofInt_sub, Int32.ofInt_toInt, Int32.ofInt_toInt])
  | mul =>
    exact hValue _ _ (by rw [Operator.integerValue, Int32.ofInt_mul, Int32.ofInt_toInt, Int32.ofInt_toInt])
  | div =>
    have hQuotient : a / b = .ofInt (a.toInt.tdiv b.toInt) := by
      rw [← Int32.toInt_inj, Int32.toInt_ofInt, Int32.toInt_div]
    exact (performAll_singleton ..).trans ((if_pos hDefined).trans (hValue _ _ hQuotient))
  | mod =>
    have hRest : a % b = .ofInt (a.toInt.tmod b.toInt) := by rw [← Int32.toInt_mod, Int32.ofInt_toInt]
    exact (performAll_singleton ..).trans ((if_pos hDefined).trans (hValue _ _ hRest))
  | eq => exact hValue _ _ (truthValue_inj.mpr Int32.toInt_inj.symm)
  | neq =>
    exact hValue _ _ ((truthValue_eq_zero _).trans (truthValue_inj.mpr (not_congr Int32.toInt_inj.symm)))
  | leq =>
    have hOrder : ¬ b < a ↔ a.toInt ≤ b.toInt := by rw [Int32.lt_iff_toInt_lt, Int.not_lt]
    exact hValue _ _ ((truthValue_eq_zero _).trans (truthValue_inj.mpr hOrder))
  | geq =>
    have hOrder : ¬ a < b ↔ b.toInt ≤ a.toInt := by rw [Int32.lt_iff_toInt_lt, Int.not_lt]
    exact hValue _ _ ((truthValue_eq_zero _).trans (truthValue_inj.mpr hOrder))
  | less | greater => exact hValue _ _ (truthValue_inj.mpr Int32.lt_iff_toInt_lt)
  | bitAnd | bitOr | bitXor => rfl
  | boolAnd => exact absurd rfl hOp
  | boolOr =>
    have hTrue : a ||| b ≠ 0 ↔ a ≠ 0 ∨
      b ≠ 0 := by rw [Ne, Int32.or_eq_zero_iff, Decidable.not_and_iff_or_not]
    exact hValue _ _ (truthValue_inj.mpr ((Int32.zero_lt_unsigned _).trans hTrue))
  | shl =>
    exact (performAll_singleton ..).trans ((if_pos hDefined).trans (hValue _ _ (Int32.shiftLeft_eq hDefined)))
  | shr =>
    exact (performAll_singleton ..).trans
      ((if_pos hDefined).trans (hValue _ _ (Int32.shiftRight_eq hDefined)))
  | none | neg | bitNot | boolNot | unknown => cases hLegal

theorem unary_performs {op : Operator} {t : Ty} (hLegal : op.unaryResult? .integer = some t) (a : Int32)
    (stack : List Int32) :
    performAll (unary op .integer) (a :: stack) = some (op.unaryIntegerValue a :: stack) := by
  have hValue : ∀ v w : Int32, v = w → some (v :: stack) = some (w :: stack) := fun _ _ h => by rw [h]
  cases op with
  | neg => exact hValue _ _ (by rw [Operator.unaryIntegerValue, Int32.ofInt_neg, Int32.ofInt_toInt])
  | bitNot =>
    have hBits : ~~~a = .ofInt (-a.toInt - 1) := by
      rw [← Int32.toInt_inj, Int32.toInt_ofInt, Int32.toInt_not]
    exact hValue _ _ hBits
  | boolNot => rfl
  | _ => cases hLegal

/-- The text of an operator on integers computes its value on all operands on which it is defined, whatever
lies below them on the stack. Only the conjunction of truth values goes wrong, and only on two true integers
without a common bit: these are both true, and it says that they are not. -/
theorem sequences_compute (a b : Int32) (stack : List Int32) :
    (∀ (op : Operator) (t : Ty), op.binaryResult? .integer .integer = some t → op.definedOn a b = true →
      if op = .boolAnd ∧ a ≠ 0 ∧ b ≠ 0 ∧ a &&& b = 0 then
        performAll (binary op .integer .integer) (b :: a :: stack) = some (0 :: stack) ∧ op.integerValue a
          b = 1
      else performAll (binary op .integer .integer) (b :: a :: stack) = some
        (op.integerValue a b :: stack)) ∧
    ∀ (op : Operator) (t : Ty), op.unaryResult? .integer = some t →
      performAll (unary op .integer) (a :: stack) = some (op.unaryIntegerValue a :: stack) := by
  refine ⟨fun op t hLegal hDefined => ?_, fun op t hLegal => unary_performs hLegal a stack⟩
  split
  · next hApart =>
    obtain ⟨rfl, ha, hb, hNone⟩ := hApart
    have hFalse : truthValue (a &&& b ≠ 0) = 0 := if_neg (not_not_intro hNone)
    exact ⟨hFalse ▸ boolAnd_performs a b stack, if_pos ⟨ha, hb⟩⟩
  · next hApart =>
    by_cases hOp : op = .boolAnd
    · subst hOp
      have hTrue : a &&& b ≠ 0 ↔ a ≠ 0 ∧ b ≠ 0 := by
        refine ⟨fun hCommon => ⟨?_, ?_⟩, fun ⟨ha, hb⟩ hNone => hApart ⟨rfl, ha, hb, hNone⟩⟩
        · rintro rfl
          simp at hCommon
        · rintro rfl
          simp at hCommon
      rw [boolAnd_performs, Operator.integerValue, truthValue_inj.mpr hTrue]
    · exact binary_performs hLegal hDefined hOp stack

theorem sequences_compute_division :
    Operator.div.binaryResult? .integer .integer = some .integer ∧ Operator.div.definedOn (-7) 2 = true ∧
      performAll (binary .div .integer .integer) [2, -7] = some [-3] ∧
      Operator.neg.unaryResult? .integer = some .integer ∧
      performAll (unary .neg .integer) [.minValue] = some [.minValue] := by
  have hRun := (sequences_compute (-7) 2 []).1 .div .integer rfl (by decide)
  rw [if_neg (by decide)] at hRun
  have hQuotient : Operator.integerValue (-7) 2 .div = -3 := by decide
  have hNegated := (sequences_compute .minValue 0 []).2 .neg .integer rfl
  exact ⟨rfl, by decide, hQuotient ▸ hRun, rfl, hNegated⟩

/-- One and two are true, and their conjunction is not. -/
theorem boolAnd_of_one_two :
    performAll (binary .boolAnd .integer .integer) [2, 1] = some [0] ∧ Operator.integerValue 1 2
      .boolAnd = 1 := by
  decide

end Assembly
end Lsl
