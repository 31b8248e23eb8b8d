/-! Reading whole numbers of 64 bits with a sign: plain decimals, and numerals that choose their base
and may set digits apart by underscores. -/
namespace Lsl.Text

def maxInt64 : Nat := 0x7fffffffffffffff

/-- The number with a magnitude and a sign, if it has 64 bits. -/
def signedInt64? (negative : Bool) (magnitude : Nat) : Option Int :=
  if negative then if magnitude ≤ maxInt64 + 1 then some (-magnitude) else none
  else if magnitude ≤ maxInt64 then some magnitude else none

def splitSign : List Char → Bool × List Char
  | '-' :: cs => (true, cs)
  | '+' :: cs => (false, cs)
  | cs => (false, cs)

/-- The value of a digit or letter as a digit: letters of either case follow nine. -/
def digitValue? (c : Char) : Option Nat :=
  if c.isDigit then some (c.toNat - 48)
  else if c.isLower then some (c.toNat - 87)
  else if c.isUpper then some (c.toNat - 55)
  else none

/-- The value of digits in a base, most significant first. -/
def digitsValue? (base : Nat) (cs : List Char) : Option Nat :=
  cs.foldlM (fun n c => do
    let d ← digitValue? c
    if d < base then some (n * base + d) else none) 0

def decimalInt64? (s : String) : Option Int := do
  let (negative, cs) := splitSign s.toList
  if cs.isEmpty then none else signedInt64? negative (← digitsValue? 10 cs)

/-- The base that a numeral chooses and its digits. A nought alone chooses octal digits. -/
def splitBase : List Char → Nat × List Char
  | '0' :: m :: c :: cs =>
    match m.toLower with
    | 'b' => (2, c :: cs)
    | 'o' => (8, c :: cs)
    | 'x' => (16, c :: cs)
    | _ => (8, m :: c :: cs)
  | '0' :: cs => (8, cs)
  | cs => (10, cs)

/-- Whether every underscore stands between two digits. What comes before the text counts as a digit
if `afterDigit`. -/
def underscoresBetween (afterDigit : Bool) : List Char → Bool
  | [] => true
  | '_' :: rest =>
    afterDigit && (match rest with
      | c :: _ => c != '_'
      | [] => false) && underscoresBetween false rest
  | _ :: rest => underscoresBetween true rest

/-- The number of 64 bits that a numeral shows. The mark of a base, or the nought that stands for it,
counts as a digit before an underscore. -/
def numeralInt64? (s : String) : Option Int := do
  let (negative, cs) := splitSign s.toList
  if cs.isEmpty then none
  else
    let (base, digits) := splitBase cs
    let value ← digitsValue? base (digits.filter (· ≠ '_'))
    if underscoresBetween (base ≠ 10) digits then signedInt64? negative value else none

end Lsl.Text
