import Lsl.Single.Basic
import Lsl.Text.Number

/-! Decimal text of single-precision numbers. The shortest text has the fewest digits that lie
closer to the number than to any other; fixed text has a given number of decimals. Both are computed
exactly. -/
namespace Lsl.Single

/-- A positive fraction `num / den`. -/
structure Ratio where
  num : Nat
  den : Nat

def Ratio.scaled (m : Nat) (e : Int) : Ratio :=
  if 0 ≤ e then ⟨m <<< e.toNat, 1⟩ else ⟨m, 1 <<< (-e).toNat⟩

def Ratio.tens (m : Nat) (e : Int) : Ratio :=
  if 0 ≤ e then ⟨m * Nat.pow 10 e.toNat, 1⟩ else ⟨m, Nat.pow 10 (-e).toNat⟩

def Ratio.le (a b : Ratio) : Bool := a.num * b.den ≤ b.num * a.den

def Ratio.lt (a b : Ratio) : Bool := a.num * b.den < b.num * a.den

/-- The numbers that round to one finite number: those between the midpoints to its neighbours. The
midpoints themselves belong to it when its significand is even. -/
structure Interval where
  low : Ratio
  high : Ratio
  closed : Bool

def Interval.contains (i : Interval) (r : Ratio) : Bool :=
  if i.closed then i.low.le r && r.le i.high else i.low.lt r && r.lt i.high

/-- The interval of a finite nonzero number. Below a power of two the neighbour is half as far. -/
def interval (x : Single) : Interval :=
  let m := x.significand
  let e := x.exponent
  { low := if x.fraction = 0 ∧ 1 < x.exponentField then .scaled (4 * m - 1) (e - 2)
           else .scaled (2 * m - 1) (e - 1)
    high := .scaled (2 * m + 1) (e - 1)
    closed := m % 2 == 0 }

/-- A decimal number `digits * 10 ^ exponent`. -/
structure Decimal where
  digits : Nat
  exponent : Int
deriving DecidableEq

/-- Moves trailing zeros of the digits into the exponent. -/
def Decimal.trim : Nat → Decimal → Decimal
  | 0, d => d
  | fuel + 1, d =>
    if d.digits ≠ 0 ∧ d.digits % 10 = 0 then trim fuel ⟨d.digits / 10, d.exponent + 1⟩ else d

/-- The power of ten of the leading digit of a positive fraction: the least `k` from `start` upward
with `r < 10 ^ (k + 1)`. -/
def leadingPower (r : Ratio) : Nat → Int → Int
  | 0, k => k
  | fuel + 1, k => if r.lt (.tens 1 (k + 1)) then k else leadingPower r fuel (k + 1)

/-- The candidate on the decimal grid of step `10 ^ e` that the interval accepts: the nearer of the
two grid points around the value, the even one if both are as near, the other if only that lies in
the interval. -/
def onGrid (i : Interval) (r : Ratio) (e : Int) : Option Decimal :=
  let unit := Ratio.tens 1 e
  let num := r.num * unit.den
  let den := r.den * unit.num
  let below := num / den
  let near := roundDiv num den
  let far := if near = below then below + 1 else below
  if i.contains (.tens near e) then some ⟨near, e⟩
  else if i.contains (.tens far e) then some ⟨far, e⟩
  else none

/-- The shortest decimal of a finite nonzero number, ignoring its sign. Nine digits always reach
the interval. -/
def shortest (x : Single) : Decimal :=
  let r := Ratio.scaled x.significand x.exponent
  let k := leadingPower r 100 (-46)
  let found := (List.range 9).findSome? fun (n : Nat) => onGrid x.interval r (k - n)
  (found.getD ⟨0, 0⟩).trim 9

/-- The decimal digits of the shortest text and the power of ten of the first of them. -/
def shortestDigits (x : Single) : List Char × Int :=
  if x.isZero then (['0'], 0)
  else
    let d := x.shortest
    let ds := (toString d.digits).toList
    (ds, d.exponent + (ds.length - 1))

/-- Texts that are the same in every layout. -/
def special? (x : Single) : Option String :=
  if x.isNaN then some "NaN"
  else if x.isInfinite then some (if x.isNegative then "-Inf" else "+Inf")
  else none

/-- Digits without exponent: the first one counts `10 ^ lead`. -/
def positional (ds : List Char) (lead : Int) : List Char :=
  if lead < 0 then '0' :: '.' :: (List.replicate (-lead - 1).toNat '0' ++ ds)
  else
    let whole := lead.toNat + 1
    let front := ds.take whole ++ List.replicate (whole - ds.length) '0'
    match ds.drop whole with
    | [] => front
    | rest => front ++ '.' :: rest

/-- One digit before the point, and a signed exponent of at least two digits. -/
def scientific (ds : List Char) (lead : Int) : List Char :=
  let mantissa := match ds with
    | [] => []
    | [d] => [d]
    | d :: rest => d :: '.' :: rest
  let sign := if lead < 0 then '-' else '+'
  mantissa ++ 'e' :: sign :: (Text.padLeft '0' 2 (toString lead.natAbs)).toList

def signText (x : Single) : String := if x.isNegative then "-" else ""

/-- Shortest text for listings: an exponent is written below `1e-04` and from `1e+06` on. -/
def general (x : Single) : String :=
  match x.special? with
  | some s => s
  | none =>
    let (ds, lead) := x.shortestDigits
    x.signText ++
      String.ofList (if lead < -4 ∨ 6 ≤ lead then scientific ds lead else positional ds lead)

def plain (x : Single) : String :=
  match x.special? with
  | some s => s
  | none =>
    let (ds, lead) := x.shortestDigits
    x.signText ++ String.ofList (positional ds lead)

/-- Shortest text that reads as a float literal: whole numbers end in `.0`. -/
def literal (x : Single) : String :=
  let s := x.plain
  if s.toList.any fun c => c == '.' || c == 'n' || c == 'N' then s else s ++ ".0"

/-- Text with `places` decimals, rounded from the exact value; halves go to the even digit. -/
def fixed (places : Nat) (x : Single) : String :=
  match x.special? with
  | some s => s
  | none =>
    let r := Ratio.scaled x.significand x.exponent
    let n := roundDiv (r.num * Nat.pow 10 places) r.den
    let ds := (Text.padLeft '0' (places + 1) (toString n)).toList
    x.signText ++ String.ofList (ds.take (ds.length - places)) ++ "." ++
      String.ofList (ds.drop (ds.length - places))

end Lsl.Single
