import Lsl.Single.Basic

/-! Conversions between single precision and the half and double formats, and from whole numbers by
way of double precision. -/
namespace Lsl.Single

/-- A NaN with the leading bits of a payload. It is quiet whatever the payload says. -/
def quietNaN (negative : Bool) (payload : Nat) : Single :=
  ⟨(withSign negative (0x7f800000 + payload)).bits ||| 0x00400000⟩

def ofHalf (bits : UInt16) : Single :=
  let negative := decide (0x8000 ≤ bits)
  let e : Nat := bits.toNat / 0x400 % 0x20
  let f : Nat := bits.toNat % 0x400
  if e = 31 then if f = 0 then infinity negative else quietNaN negative (f * 0x2000)
  else if e = 0 then ofScaled negative f (-24)
  else ofScaled negative (f + 0x400) (e - 25)

/-- A number in single precision that has passed through arithmetic: a NaN becomes quiet. -/
def settled (x : Single) : Single := if x.isNaN then quietNaN x.isNegative x.fraction else x

/-- A number in double precision, unless it is finite and larger than any finite single. -/
def ofDouble? (bits : UInt64) : Option Single :=
  let negative := decide (0x8000000000000000 ≤ bits)
  let e : Nat := bits.toNat / 0x10000000000000 % 0x800
  let f : Nat := bits.toNat % 0x10000000000000
  if e = 2047 then
    some (if f = 0 then infinity negative else quietNaN negative (f / 0x20000000))
  else
    let m := if e = 0 then f else f + 0x10000000000000
    let q : Int := if e = 0 then -1074 else e - 1075
    let tooLarge := if 104 ≤ q then 0xffffff < m <<< (q - 104).toNat
      else 0xffffff <<< (104 - q).toNat < m
    if tooLarge then none else some (ofScaled negative m q)

/-- The whole number nearest to `n` with 53 significant bits; halves go to the even one. -/
def roundToDouble (n : Nat) : Nat :=
  if n.log2 < 53 then n
  else
    let unit := 1 <<< (n.log2 - 52)
    roundDiv n unit * unit

/-- A whole number, rounded to double precision and then to single precision. -/
def ofIntViaDouble (n : Int) : Single := ofScaled (n < 0) (roundToDouble n.natAbs) 0

/-- Moves factors of two from the significand into the exponent. -/
def oddPart : Nat → Nat → Int → Nat × Int
  | 0, m, e => (m, e)
  | fuel + 1, m, e => if m ≠ 0 ∧ m % 2 = 0 then oddPart fuel (m / 2) (e + 1) else (m, e)

/-- The half-precision pattern of a number that has one with the same value. A NaN becomes the
quiet NaN without payload. -/
def toHalf? (x : Single) : Option UInt16 :=
  let sign := if x.isNegative then 0x8000 else 0
  if x.isNaN then some 0x7e00
  else if x.isInfinite then some (UInt16.ofNat (sign + 0x7c00))
  else if x.isZero then some (UInt16.ofNat sign)
  else
    let (m, e) := oddPart 24 x.significand x.exponent
    let top := m.log2 + e
    if e < -24 ∨ 15 < top ∨ 10 < m.log2 then none
    else if top < -14 then some (UInt16.ofNat (sign + m <<< (e + 24).toNat))
    else
      some (UInt16.ofNat (sign + (top + 15).toNat * 0x400 + (m <<< (10 - m.log2) - 0x400)))

end Lsl.Single
