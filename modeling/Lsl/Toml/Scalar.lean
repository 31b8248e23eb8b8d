import Lsl.Toml.Value

/-! Numbers, truth values, dates and times of a configuration text. -/
namespace Lsl.Toml

abbrev Chars := List Char

/-- Digits with single underscores between them, without the underscores. -/
def digits? (ok : Char → Bool) : Chars → Option Chars
  | [] => none
  | [c] => if ok c then some [c] else none
  | c :: '_' :: cs => if ok c then (digits? ok cs).map (c :: ·) else none
  | c :: cs => if ok c then (digits? ok cs).map (c :: ·) else none

def digitValue (c : Char) : Nat :=
  if c.isDigit then c.toNat - 48
  else if 'a' ≤ c ∧ c ≤ 'f' then c.toNat - 87
  else if 'A' ≤ c ∧ c ≤ 'F' then c.toNat - 55
  else 16

def isDigitOf (base : Nat) (c : Char) : Bool := digitValue c < base

def numberOf (base : Nat) (ds : Chars) : Nat := ds.foldl (fun n c => n * base + digitValue c) 0

/-- Decimal digits that do not start with a needless zero. -/
def decimal? (cs : Chars) : Option Chars := do
  let ds ← digits? Char.isDigit cs
  match ds with
  | '0' :: _ :: _ => none
  | _ => return ds

def splitSign : Chars → Bool × Chars
  | '-' :: cs => (true, cs)
  | '+' :: cs => (false, cs)
  | cs => (false, cs)

/-- A whole number: decimal with an optional sign, or in another base. -/
def whole? (cs : Chars) : Option Int :=
  match cs with
  | '0' :: 'x' :: cs => (digits? (isDigitOf 16) cs).map fun ds => numberOf 16 ds
  | '0' :: 'o' :: cs => (digits? (isDigitOf 8) cs).map fun ds => numberOf 8 ds
  | '0' :: 'b' :: cs => (digits? (isDigitOf 2) cs).map fun ds => numberOf 2 ds
  | cs =>
    let (negative, cs) := splitSign cs
    (decimal? cs).map fun ds => if negative then -(numberOf 10 ds : Int) else numberOf 10 ds

def exponent? : Chars → Option Int
  | c :: cs =>
    if c == 'e' || c == 'E' then
      let (negative, cs) := splitSign cs
      (digits? Char.isDigit cs).map fun ds =>
        if negative then -(numberOf 10 ds : Int) else numberOf 10 ds
    else none
  | [] => none

/-- The digits of a fraction and its exponent. A fraction or an exponent may be left out, but not
both. -/
def fraction? : Chars → Option (Chars × Int)
  | '.' :: cs => do
    let (ds, e) := cs.span fun c => c != 'e' && c != 'E'
    let ds ← digits? Char.isDigit ds
    if e.isEmpty then return (ds, 0) else return (ds, ← exponent? e)
  | cs => (exponent? cs).map fun e => ([], e)

/-- The least number that a double rounds to infinity. -/
def doubleLimit : Nat := (1 <<< 1024) - (1 <<< 970)

/-- Whether the number that digits spell, times a power of ten, is finite as a double. The power is
compared with the number of digits first, so that it is never great. -/
def isFinite (ds : Chars) (power : Int) : Bool :=
  let n := numberOf 10 ds
  if n = 0 ∨ power + ds.length ≤ 0 then true
  else if 400 < power then false
  else if 0 ≤ power then n * Nat.pow 10 power.toNat < doubleLimit
  else n < doubleLimit * Nat.pow 10 (-power).toNat

def isFloat (cs : Chars) : Bool :=
  let body := (splitSign cs).2
  let (front, rest) := body.span fun c => c != '.' && c != 'e' && c != 'E'
  body == "inf".toList || body == "nan".toList ||
    match decimal? front, fraction? rest with
    | some whole, some (ds, e) => isFinite (whole ++ ds) (e - ds.length)
    | _, _ => false

/-- A number of exactly `n` digits between two bounds, and the rest. -/
def bounded? (n low high : Nat) (cs : Chars) : Option (Nat × Chars) :=
  let ds := cs.take n
  let v := numberOf 10 ds
  if ds.length = n ∧ ds.all Char.isDigit ∧ low ≤ v ∧ v ≤ high then some (v, cs.drop n) else none

def daysOf (year month : Nat) : Nat :=
  if month = 2 then
    if year % 4 = 0 ∧ (year % 100 ≠ 0 ∨ year % 400 = 0) then 29 else 28
  else if month = 4 ∨ month = 6 ∨ month = 9 ∨ month = 11 then 30
  else 31

def mark? (c : Char) : Chars → Option Chars
  | d :: cs => if c = d then some cs else none
  | [] => none

def date? (cs : Chars) : Option Chars := do
  let (year, cs) ← bounded? 4 0 9999 cs
  let cs ← mark? '-' cs
  let (month, cs) ← bounded? 2 1 12 cs
  let cs ← mark? '-' cs
  let (_, cs) ← bounded? 2 1 (daysOf year month) cs
  return cs

def secondFraction? (cs : Chars) : Option Chars :=
  match cs with
  | '.' :: cs => if (cs.takeWhile Char.isDigit).isEmpty then none else some (cs.dropWhile Char.isDigit)
  | cs => some cs

/-- Reads a time of day. The seconds may be left out. -/
def time? (cs : Chars) : Option Chars := do
  let (_, cs) ← bounded? 2 0 23 cs
  let cs ← mark? ':' cs
  let (_, cs) ← bounded? 2 0 59 cs
  match cs with
  | ':' :: cs => do
    let (_, cs) ← bounded? 2 0 59 cs
    secondFraction? cs
  | cs => return cs

/-- Whether characters are the distance from universal time, of up to 24 hours and 60 minutes. -/
def isZone : Chars → Bool
  | ['Z'] | ['z'] => true
  | c :: cs =>
    (c == '+' || c == '-') &&
      match (do
        let (_, cs) ← bounded? 2 0 24 cs
        let cs ← mark? ':' cs
        let (_, cs) ← bounded? 2 0 60 cs
        return cs) with
      | some [] => true
      | _ => false
  | [] => false

def isMoment (cs : Chars) : Bool :=
  match date? cs with
  | some [] => true
  | some (c :: cs) =>
    (c == 'T' || c == 't' || c == ' ') &&
      match time? cs with
      | some rest => rest.isEmpty || isZone rest
      | none => false
  | none => time? cs == some []

/-- The value that a word spells. Whole numbers must fit 64 bits. -/
def scalar? (word : Chars) : Option Value :=
  if word = "true".toList then some (.boolean true)
  else if word = "false".toList then some (.boolean false)
  else match whole? word with
    | some n => if -0x8000000000000000 ≤ n ∧ n < 0x8000000000000000 then some (.integer n) else none
    | none =>
      if isFloat word then some (.float (String.ofList word))
      else if isMoment word then some (.moment (String.ofList word))
      else none

end Lsl.Toml
