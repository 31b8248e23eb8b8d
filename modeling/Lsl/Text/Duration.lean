/-! Durations: numbers with units of time, one after another, such as `1h30m` or `1.5s`. -/
namespace Lsl.Text

def timeUnits : List (String × Nat) :=
  [("ns", 1), ("us", 1000), ("µs", 1000), ("μs", 1000), ("ms", 1000000),
    ("s", 1000000000), ("m", 60000000000), ("h", 3600000000000)]

/-- The longest duration before today, in nanoseconds. -/
def maxDuration : Nat := 0x8000000000000000

def decimalValue (cs : List Char) : Nat := cs.foldl (fun n c => n * 10 + (c.toNat - 48)) 0

/-- Digits behind a point as a number and the power of ten that divides it. Digits that make the
number too great are left out. -/
def fraction (cs : List Char) : Nat × Float :=
  let rec go (n : Nat) (scale : Float) : List Char → Nat × Float
    | [] => (n, scale)
    | c :: cs =>
      let next := n * 10 + (c.toNat - 48)
      if (maxDuration - 1) / 10 < n ∨ maxDuration < next then (n, scale)
      else go next (scale * 10) cs
  go 0 1 cs

/-- The nanoseconds of a fraction of a unit, rounded down. -/
def fractionOf (unit : Nat) (cs : List Char) : Nat :=
  let (n, scale) := fraction cs
  (Float.ofNat n * (Float.ofNat unit / scale)).toUInt64.toNat

def isNumberPart (c : Char) : Bool := c == '.' || c.isDigit

def timePart? (whole decimals unit : List Char) : Option Nat := do
  let scale ← timeUnits.lookup (String.ofList unit)
  let n := decimalValue whole
  if maxDuration < n ∨ maxDuration / scale < n then none
  else
    let value := n * scale + fractionOf scale decimals
    if maxDuration < value then none else some value

/-- Reads numbers with their units; `total` is what has been read. The sum has 64 bits. -/
def timeParts? : Nat → Nat → List Char → Option Nat
  | _, total, [] => some total
  | 0, _, _ => none
  | fuel + 1, total, cs => do
    let whole := cs.takeWhile Char.isDigit
    let rest := cs.dropWhile Char.isDigit
    let (decimals, rest) := match rest with
      | '.' :: rest => (rest.takeWhile Char.isDigit, rest.dropWhile Char.isDigit)
      | rest => ([], rest)
    if whole.isEmpty ∧ decimals.isEmpty then none
    else
      let unit := rest.takeWhile (!isNumberPart ·)
      let value ← timePart? whole decimals unit
      let total := (total + value) % 0x10000000000000000
      if maxDuration < total then none
      else timeParts? fuel total (rest.dropWhile (!isNumberPart ·))

/-- The nanoseconds that a text stands for. A nought needs no unit. -/
def duration? (s : String) : Option Int := do
  let (negative, cs) := match s.toList with
    | '-' :: cs => (true, cs)
    | '+' :: cs => (false, cs)
    | cs => (false, cs)
  if cs = ['0'] then some 0
  else if cs.isEmpty then none
  else
    let total ← timeParts? cs.length 0 cs
    if negative then some (-total) else if total < maxDuration then some total else none

end Lsl.Text
