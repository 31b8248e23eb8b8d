/-! Text as bytes. A byte sequence is read one character at a time; a byte that begins no complete
and shortest encoding of a character stands for itself. -/
namespace Lsl.Text

def bytes (s : String) : List UInt8 := s.toList.flatMap String.utf8EncodeChar

/-- One step of reading: a character, or a byte that belongs to none. -/
inductive Piece where
  | char (c : Char)
  | raw (b : UInt8)
deriving DecidableEq

/-- The low six bits of a continuation byte. -/
def continuation? (b : UInt8) : Option Nat :=
  if 0x80 ≤ b ∧ b ≤ 0xbf then some (b.toNat - 0x80) else none

/-- The character with this code, unless it is a surrogate, too large, or below `least`, the first
code that needs an encoding of this length. -/
def scalar? (least code : Nat) : Option Char :=
  if least ≤ code then
    if h : code.isValidChar then some (Char.ofNatAux code h) else none
  else none

def char2? (a b : UInt8) : Option Char := do
  guard (0xc0 ≤ a ∧ a ≤ 0xdf)
  let y ← continuation? b
  scalar? 0x80 ((a.toNat - 0xc0) * 64 + y)

def char3? (a b c : UInt8) : Option Char := do
  guard (0xe0 ≤ a ∧ a ≤ 0xef)
  let y ← continuation? b
  let z ← continuation? c
  scalar? 0x800 (((a.toNat - 0xe0) * 64 + y) * 64 + z)

def char4? (a b c d : UInt8) : Option Char := do
  guard (0xf0 ≤ a ∧ a ≤ 0xf7)
  let x ← continuation? b
  let y ← continuation? c
  let z ← continuation? d
  scalar? 0x10000 ((((a.toNat - 0xf0) * 64 + x) * 64 + y) * 64 + z)

/-- Reads the first character of nonempty bytes and tells how many bytes beyond the first it takes. -/
def firstPiece (a : UInt8) (rest : List UInt8) : Piece × Nat :=
  if a < 0x80 then (.char (Char.ofNat a.toNat), 0)
  else
    match rest with
    | [] => (.raw a, 0)
    | [b] => ((char2? a b).elim (.raw a) .char, if (char2? a b).isSome then 1 else 0)
    | b :: c :: more =>
      match char2? a b, char3? a b c with
      | some ch, _ => (.char ch, 1)
      | none, some ch => (.char ch, 2)
      | none, none =>
        match more with
        | [] => (.raw a, 0)
        | d :: _ =>
          match char4? a b c d with
          | some ch => (.char ch, 3)
          | none => (.raw a, 0)

/-- Splits bytes into characters and bytes that belong to no character. -/
def pieces : List UInt8 → List Piece
  | [] => []
  | a :: rest =>
    let (piece, more) := firstPiece a rest
    piece :: pieces (rest.drop more)
termination_by bs => bs.length
decreasing_by
  simp only [List.length_drop, List.length_cons]
  omega

def ofBytes? (bs : List UInt8) : Option String :=
  ((pieces bs).mapM fun piece =>
    match piece with
    | Piece.char c => some c
    | Piece.raw _ => none).map String.ofList

end Lsl.Text
