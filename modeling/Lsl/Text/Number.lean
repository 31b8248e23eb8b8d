/-! Text of whole numbers: hexadecimal digits, zero and blank padding. -/
namespace Lsl.Text

def hexDigit (n : Nat) : Char :=
  if n < 10 then Char.ofNat (48 + n) else Char.ofNat (87 + n)

/-- The digits of `n` in base `b + 2`, most significant first; zero has one digit. -/
def digitsFrom (b n : Nat) (tail : List Nat) : List Nat :=
  if h : n < b + 2 then n :: tail
  else
    have : n / (b + 2) < n := Nat.div_lt_self (by omega) (by omega)
    digitsFrom b (n / (b + 2)) (n % (b + 2) :: tail)
termination_by n

def hex (n : Nat) : String := String.ofList ((digitsFrom 14 n []).map hexDigit)

/-- `s` brought to at least `width` characters by `fill` on its left. -/
def padLeft (fill : Char) (width : Nat) (s : String) : String :=
  String.ofList (List.replicate (width - s.length) fill) ++ s

def padRight (width : Nat) (s : String) : String :=
  s ++ String.ofList (List.replicate (width - s.length) ' ')

def hexPadded (width n : Nat) : String := padLeft '0' width (hex n)

/-- Upper-case hexadecimal with at least `width` places. The sign of a negative number takes one of
them, so that only the rest is filled with zeros. -/
def upperHex (width : Nat) (n : Int) : String :=
  let upper (k : Nat) := (hex k).map Char.toUpper
  match n with
  | .ofNat k => padLeft '0' width (upper k)
  | .negSucc k => "-" ++ padLeft '0' (width - 1) (upper (k + 1))

def signed (n : Int) : String := if n < 0 then toString n else "+" ++ toString n

def hexBytes (bs : List UInt8) : String :=
  String.ofList (bs.flatMap fun b => [hexDigit (b.toNat / 16), hexDigit (b.toNat % 16)])

def hexValue? (c : Char) : Option Nat :=
  let n := c.toNat
  if 48 ≤ n ∧ n ≤ 57 then some (n - 48)
  else if 97 ≤ n ∧ n ≤ 102 then some (n - 87)
  else if 65 ≤ n ∧ n ≤ 70 then some (n - 55)
  else none

def bytesOfHex? : List Char → Option (List UInt8)
  | [] => some []
  | [_] => none
  | a :: b :: rest => do
    let high ← hexValue? a
    let low ← hexValue? b
    let tail ← bytesOfHex? rest
    return UInt8.ofNat (16 * high + low) :: tail

end Lsl.Text
