import Lsl.Single.Convert
import Mathlib.Tactic.Ring

/-! The shortest form of a number. A half-precision pattern stands for one value, and so does a
single-precision one, so two numbers with the same shortest form are the same, but for the sign of a zero
and the payload of a NaN. -/
namespace Lsl.Single

variable {m : Nat} {e : Int} {h : UInt16}

variable {x y : Single}

/-- A number without the sign of a zero and without the payload of a NaN. -/
def canonical (x : Single) : Single :=
  if x.isZero then zero else if x.isNaN then ⟨0x7fc00000⟩ else x

theorem ext_of_fields (hSign : x.isNegative = y.isNegative) (hExponent : x.exponentField = y.exponentField)
    (hFraction : x.fraction = y.fraction) : x = y := by
  have hx := x.bits.toNat_lt
  have hy := y.bits.toNat_lt
  simp only [isNegative, decide_eq_decide, UInt32.le_iff_toNat_le, UInt32.reduceToNat] at hSign
  simp only [exponentField, fraction] at hExponent hFraction
  have hBits : x.bits.toNat = y.bits.toNat := by omega
  cases x
  cases y
  exact congrArg mk (UInt32.toNat_inj.mp hBits)

theorem fraction_lt (x : Single) : x.fraction < 2 ^ 23 := Nat.mod_lt _ (by decide)

/-- How often the smallest positive number fits into a finite number. -/
def units (x : Single) : Nat := x.significand * 2 ^ (x.exponent + 149).toNat

theorem units_small (h : x.exponentField = 0) : x.units = x.fraction := by
  simp [units, significand, exponent, h]

theorem units_large (h : x.exponentField ≠ 0) :
    x.units = (x.fraction + 2 ^ 23) * 2 ^ (x.exponentField - 1) := by
  have hExponent : (x.exponent + 149).toNat = x.exponentField - 1 := by
    simp only [exponent, h, if_false]
    omega
  rw [units, hExponent, significand, if_neg h]
  rfl

/-- The exponent is read off the size of a number. -/
theorem units_range (h : x.exponentField ≠ 0) :
    2 ^ (x.exponentField + 22) ≤ x.units ∧ x.units < 2 ^ (x.exponentField + 23) := by
  have hFraction := x.fraction_lt
  have hPower : x.exponentField + 22 = 23 + (x.exponentField - 1) := by omega
  have hNext : x.exponentField + 23 = 24 + (x.exponentField - 1) := by omega
  rw [units_large h, hPower, hNext, Nat.pow_add 2 23, Nat.pow_add 2 24]
  constructor
  · exact Nat.mul_le_mul_right _ (by omega)
  · exact Nat.mul_lt_mul_of_pos_right (by omega) (Nat.two_pow_pos _)

/-- Numbers of the same sign and size are the same. -/
theorem ext_of_units (hSign : x.isNegative = y.isNegative) (hUnits : x.units = y.units) : x = y := by
  have hx := x.fraction_lt
  have hy := y.fraction_lt
  by_cases hSmall : x.exponentField = 0
  · by_cases hSmall' : y.exponentField = 0
    · rw [units_small hSmall, units_small hSmall'] at hUnits
      exact ext_of_fields hSign (hSmall.trans hSmall'.symm) hUnits
    · have hLow := (units_range hSmall').1
      have hPower : 2 ^ 23 ≤ 2 ^ (y.exponentField + 22) := Nat.pow_le_pow_right (by decide) (by omega)
      rw [units_small hSmall] at hUnits
      omega
  · by_cases hSmall' : y.exponentField = 0
    · have hLow := (units_range hSmall).1
      have hPower : 2 ^ 23 ≤ 2 ^ (x.exponentField + 22) := Nat.pow_le_pow_right (by decide) (by omega)
      rw [units_small hSmall'] at hUnits
      omega
    · obtain ⟨hLow, hHigh⟩ := units_range hSmall
      obtain ⟨hLow', hHigh'⟩ := units_range hSmall'
      have hLess : x.exponentField + 22 < y.exponentField + 23 :=
        (Nat.pow_lt_pow_iff_right (by decide)).mp (hLow.trans_lt (hUnits ▸ hHigh'))
      have hLess' : y.exponentField + 22 < x.exponentField + 23 :=
        (Nat.pow_lt_pow_iff_right (by decide)).mp (hLow'.trans_lt (hUnits ▸ hHigh))
      have hSame : x.exponentField = y.exponentField := by omega
      rw [units_large hSmall, units_large hSmall', hSame] at hUnits
      have hFractions := Nat.eq_of_mul_eq_mul_right (Nat.two_pow_pos _) hUnits
      exact ext_of_fields hSign hSame (by omega)

/-- Moving factors of two into the exponent keeps the value. -/
theorem oddPart_spec (fuel m : Nat) (e : Int) :
    ∃ j : Nat, (oddPart fuel m e).1 * 2 ^ j = m ∧ (oddPart fuel m e).2 = e + j := by
  induction fuel generalizing m e with
  | zero => exact ⟨0, by simp [oddPart]⟩
  | succ fuel ih =>
    unfold oddPart
    split
    next hEven =>
      obtain ⟨j, hValue, hExponent⟩ := ih (m / 2) (e + 1)
      refine ⟨j + 1, ?_, by rw [hExponent]; omega⟩
      rw [Nat.pow_succ, ← Nat.mul_assoc, hValue]
      omega
    next => exact ⟨0, by simp⟩

/-- The size that a half-precision pattern without its sign stands for. -/
def halfUnits (pattern : Nat) : Nat :=
  if pattern / 0x400 = 0 then pattern * 2 ^ 125
  else (pattern % 0x400 + 0x400) * 2 ^ (pattern / 0x400 + 124)

def halfSign (x : Single) : Nat := if x.isNegative then 0x8000 else 0

theorem halfUnits_small {p : Nat} (h : p < 0x400) : halfUnits p = p * 2 ^ 125 := by
  rw [halfUnits, if_pos (Nat.div_eq_of_lt h)]

theorem halfUnits_large {e f : Nat} (hExponent : e ≠ 0) (hFraction : f < 0x400) :
    halfUnits (e * 0x400 + f) = (f + 0x400) * 2 ^ (e + 124) := by
  have hDiv : (e * 0x400 + f) / 0x400 = e := by omega
  have hMod : (e * 0x400 + f) % 0x400 = f := by omega
  rw [halfUnits, hDiv, hMod, if_neg hExponent]

theorem significand_ne_zero (hZero : x.isZero = false) : x.significand ≠ 0 := by
  simp only [isZero, beq_eq_false_iff_ne] at hZero
  unfold significand
  split
  next hExponent =>
    simp only [exponentField, fraction] at hExponent ⊢
    omega
  next => omega

theorem units_oddPart (h : oddPart 24 x.significand x.exponent = (m, e)) :
    -149 ≤ e ∧ x.units = m * 2 ^ (e + 149).toNat := by
  obtain ⟨j, hValue, hExponent⟩ := oddPart_spec 24 x.significand x.exponent
  rw [h] at hValue hExponent
  have hLeast : -149 ≤ x.exponent := by
    unfold exponent
    split <;> omega
  have hPower : (e + 149).toNat = j + (x.exponent + 149).toNat := by omega
  refine ⟨by omega, ?_⟩
  rw [units, ← hValue, hPower, Nat.pow_add, Nat.mul_assoc]

theorem half_subnormal (hLow : -24 ≤ e) (hTop : m.log2 + e < -14) :
    m <<< (e + 24).toNat < 0x400 ∧
      halfUnits (m <<< (e + 24).toNat) = m * 2 ^ (e + 149).toNat := by
  have hSmall : m <<< (e + 24).toNat < 0x400 := by
    calc m <<< (e + 24).toNat = m * 2 ^ (e + 24).toNat := Nat.shiftLeft_eq ..
      _ < 2 ^ (m.log2 + 1) * 2 ^ (e + 24).toNat :=
        Nat.mul_lt_mul_of_pos_right Nat.lt_log2_self (Nat.two_pow_pos _)
      _ = 2 ^ (m.log2 + 1 + (e + 24).toNat) := (Nat.pow_add ..).symm
      _ ≤ 2 ^ 10 := Nat.pow_le_pow_right (by decide) (by omega)
  have hPower : (e + 149).toNat = (e + 24).toNat + 125 := by omega
  refine ⟨hSmall, ?_⟩
  rw [halfUnits_small hSmall, Nat.shiftLeft_eq, hPower, Nat.pow_add, Nat.mul_assoc]

theorem half_normal (hm : m ≠ 0) (hLog : m.log2 ≤ 10) (hTop : -14 ≤ m.log2 + e)
    (hHigh : m.log2 + e ≤ 15) :
    let p := (m.log2 + e + 15).toNat * 0x400 + (m <<< (10 - m.log2) - 0x400)
    p < 0x7c00 ∧ halfUnits p = m * 2 ^ (e + 149).toNat := by
  intro p
  have hSum : m.log2 + (10 - m.log2) = 10 := by omega
  have hLow : 0x400 ≤ m <<< (10 - m.log2) := by
    calc 0x400 = 2 ^ (m.log2 + (10 - m.log2)) := by rw [hSum]
      _ = 2 ^ m.log2 * 2 ^ (10 - m.log2) := Nat.pow_add ..
      _ ≤ m * 2 ^ (10 - m.log2) := Nat.mul_le_mul_right _ (Nat.log2_self_le hm)
      _ = m <<< (10 - m.log2) := (Nat.shiftLeft_eq ..).symm
  have hBelow : m <<< (10 - m.log2) < 0x800 := by
    calc m <<< (10 - m.log2) = m * 2 ^ (10 - m.log2) := Nat.shiftLeft_eq ..
      _ < 2 ^ (m.log2 + 1) * 2 ^ (10 - m.log2) :=
        Nat.mul_lt_mul_of_pos_right Nat.lt_log2_self (Nat.two_pow_pos _)
      _ = 2 ^ (m.log2 + 1 + (10 - m.log2)) := (Nat.pow_add ..).symm
      _ = 2 ^ 11 := by rw [show m.log2 + 1 + (10 - m.log2) = 11 by omega]
  have hPower : (e + 149).toNat = 10 - m.log2 + ((m.log2 + e + 15).toNat + 124) := by omega
  refine ⟨by omega, ?_⟩
  rw [halfUnits_large (by omega) (by omega), Nat.sub_add_cancel hLow, Nat.shiftLeft_eq, hPower,
    Nat.pow_add 2 (10 - m.log2), Nat.mul_assoc]

/-- A finite number other than zero that has a half-precision form is as large as that form. -/
theorem toHalf?_finite (hNaN : x.isNaN = false) (hInfinite : x.isInfinite = false)
    (hZero : x.isZero = false) (hHalf : x.toHalf? = some h) :
    ∃ p, p < 0x7c00 ∧ h.toNat = x.halfSign + p ∧ halfUnits p = x.units := by
  have hSign : x.halfSign ≤ 0x8000 := by
    unfold halfSign
    split <;> decide
  cases hParts : oddPart 24 x.significand x.exponent with
  | mk m e =>
  obtain ⟨_, hUnits⟩ := units_oddPart hParts
  have hm : m ≠ 0 := by
    obtain ⟨j, hValue, _⟩ := oddPart_spec 24 x.significand x.exponent
    rw [hParts] at hValue
    rintro rfl
    exact significand_ne_zero hZero (by rw [← hValue, Nat.zero_mul])
  have hWord : ∀ p, p < 0x7c00 → (UInt16.ofNat (x.halfSign + p)).toNat = x.halfSign + p :=
    fun p hp => UInt16.toNat_ofNat_of_lt' (show x.halfSign + p < 65536 by omega)
  unfold toHalf? at hHalf
  simp only [hNaN, hInfinite, hZero, Bool.false_eq_true, if_false, hParts] at hHalf
  split at hHalf
  next => cases hHalf
  next hFits =>
    push Not at hFits
    split at hHalf
    next hTop =>
      obtain ⟨hSmall, hValue⟩ := half_subnormal hFits.1 hTop
      obtain rfl := Option.some.inj hHalf
      exact ⟨_, by omega, hWord _ (by omega), hValue.trans hUnits.symm⟩
    next hTop =>
      obtain ⟨hSmall, hValue⟩ := half_normal hm hFits.2.2 (by omega) hFits.2.1
      obtain rfl := Option.some.inj hHalf
      refine ⟨_, hSmall, ?_, hValue.trans hUnits.symm⟩
      rw [Nat.add_assoc]
      exact hWord _ hSmall

/-- What the half-precision form of a number other than zero tells of it. -/
theorem toHalf?_cases (hZero : x.isZero = false) (hHalf : x.toHalf? = some h) :
    (x.isNaN = true ∧ h.toNat = 0x7e00) ∨
    (x.isNaN = false ∧ x.isInfinite = true ∧ h.toNat = x.halfSign + 0x7c00) ∨
    (x.isNaN = false ∧ x.isInfinite = false ∧
      ∃ p, p < 0x7c00 ∧ h.toNat = x.halfSign + p ∧ halfUnits p = x.units) := by
  cases hNaN : x.isNaN with
  | true =>
    rw [toHalf?, if_pos hNaN] at hHalf
    cases hHalf
    exact .inl ⟨rfl, rfl⟩
  | false =>
    cases hInfinite : x.isInfinite with
    | true =>
      simp only [toHalf?, hNaN, hInfinite, Bool.false_eq_true, if_false, if_true] at hHalf
      refine .inr (.inl ⟨rfl, rfl, ?_⟩)
      rw [← Option.some.inj hHalf]
      unfold halfSign
      cases x.isNegative <;> rfl
    | false => exact .inr (.inr ⟨rfl, rfl, toHalf?_finite hNaN hInfinite hZero hHalf⟩)

theorem halfSign_cases (x : Single) :
    (x.isNegative = true ∧ x.halfSign = 0x8000) ∨ (x.isNegative = false ∧ x.halfSign = 0) := by
  unfold halfSign
  cases x.isNegative <;> simp

theorem canonical_of_number (hZero : x.isZero = false) (hNaN : x.isNaN = false) : x.canonical = x := by
  simp [canonical, hZero, hNaN]

theorem canonical_of_nan (hZero : x.isZero = false) (hNaN : x.isNaN = true) :
    x.canonical = ⟨0x7fc00000⟩ := by
  simp [canonical, hZero, hNaN]

/-- Numbers other than zero with the same half-precision form are the same, unless they are no numbers. -/
theorem canonical_eq_of_toHalf? (hx : x.isZero = false) (hy : y.isZero = false) (hHalf : x.toHalf? = some h)
    (hHalf' : y.toHalf? = some h) : x.canonical = y.canonical := by
  have hSign := x.halfSign_cases
  have hSign' := y.halfSign_cases
  obtain ⟨hNaN, hBits⟩ | ⟨hNaN, hInfinite, hBits⟩ | ⟨hNaN, hInfinite, p, hp, hBits, hUnits⟩ :=
    toHalf?_cases hx hHalf
  · obtain ⟨hNaN', _⟩ | ⟨_, _, hBits'⟩ | ⟨_, _, p', hp', hBits', _⟩ := toHalf?_cases hy hHalf'
    · rw [canonical_of_nan hx hNaN, canonical_of_nan hy hNaN']
    · omega
    · omega
  · obtain ⟨_, hBits'⟩ | ⟨hNaN', hInfinite', hBits'⟩ | ⟨_, _, p', hp', hBits', _⟩ :=
      toHalf?_cases hy hHalf'
    · omega
    · rw [canonical_of_number hx hNaN, canonical_of_number hy hNaN']
      simp only [isInfinite, Bool.and_eq_true, beq_iff_eq] at hInfinite hInfinite'
      apply ext_of_fields
      · grind
      · omega
      · omega
    · omega
  · obtain ⟨_, hBits'⟩ | ⟨_, _, hBits'⟩ | ⟨hNaN', _, p', hp', hBits', hUnits'⟩ :=
      toHalf?_cases hy hHalf'
    · omega
    · omega
    · rw [canonical_of_number hx hNaN, canonical_of_number hy hNaN']
      have hSame : p = p' := by omega
      apply ext_of_units
      · grind
      · rw [← hUnits, ← hUnits', hSame]

theorem isZero_canonical (x : Single) : x.canonical.isZero = x.isZero := by
  cases hZero : x.isZero with
  | true => rw [canonical, if_pos hZero]; rfl
  | false =>
    cases hNaN : x.isNaN with
    | true => rw [canonical_of_nan hZero hNaN]; rfl
    | false => rw [canonical_of_number hZero hNaN, hZero]

/-- The shortest form of a number does not show the payload of a NaN. -/
theorem toHalf?_canonical (hZero : x.isZero = false) : x.canonical.toHalf? = x.toHalf? := by
  cases hNaN : x.isNaN with
  | true =>
    have hHalf : x.toHalf? = some 0x7e00 := by rw [toHalf?, if_pos hNaN]
    rw [canonical_of_nan hZero hNaN, hHalf]
    rfl
  | false => rw [canonical_of_number hZero hNaN]

end Lsl.Single
