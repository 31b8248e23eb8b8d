/-! Single-precision numbers, kept as their bit patterns, so that every payload survives and two
numbers are equal exactly when their bits are. Rounding works on exact whole numbers. -/
namespace Lsl

structure Single where
  bits : UInt32
deriving DecidableEq

/-- The quotient of `n` by `d`, rounded to the nearest whole number; halves go to the even one. -/
def roundDiv (n d : Nat) : Nat :=
  let q := n / d
  let twice := 2 * (n % d)
  if twice < d then q
  else if twice = d then q + q % 2
  else q + 1

namespace Single

def zero : Single := ⟨0⟩

def one : Single := ⟨0x3f800000⟩

/-- The sign bit. It is also set on negative zero and may be set on a NaN. -/
def isNegative (x : Single) : Bool := 0x80000000 ≤ x.bits

def exponentField (x : Single) : Nat := x.bits.toNat / 0x800000 % 0x100

def fraction (x : Single) : Nat := x.bits.toNat % 0x800000

def isNaN (x : Single) : Bool := x.exponentField == 255 && x.fraction != 0

def isInfinite (x : Single) : Bool := x.exponentField == 255 && x.fraction == 0

def isZero (x : Single) : Bool := x.bits.toNat % 0x80000000 == 0

def neg (x : Single) : Single := ⟨x.bits ^^^ 0x80000000⟩

/-- The whole number `m` in the value `m * 2 ^ x.exponent` of a finite number. -/
def significand (x : Single) : Nat :=
  if x.exponentField = 0 then x.fraction else x.fraction + 0x800000

/-- The power of two that the significand of a finite number counts. -/
def exponent (x : Single) : Int :=
  if x.exponentField = 0 then -149 else x.exponentField - 150

/-- Puts the sign in front of a bit pattern without one. -/
def withSign (negative : Bool) (pattern : Nat) : Single :=
  ⟨UInt32.ofNat (if negative then 0x80000000 + pattern else pattern)⟩

def infinity (negative : Bool) : Single := withSign negative 0x7f800000

/-- The number nearest to `m * 2 ^ e`; halves go to the even significand, and what is too large
becomes infinite. -/
def ofScaled (negative : Bool) (m : Nat) (e : Int) : Single :=
  if m = 0 then withSign negative 0
  else
    let q : Int := max (m.log2 + e - 23) (-149)
    let s := if q ≤ e then m <<< (e - q).toNat else roundDiv m (1 <<< (q - e).toNat)
    let pattern := (q + 149).toNat * 0x800000 + s
    if pattern < 0x7f800000 then withSign negative pattern else infinity negative

def ofInt (n : Int) : Single := ofScaled (n < 0) n.natAbs 0

end Single
end Lsl
