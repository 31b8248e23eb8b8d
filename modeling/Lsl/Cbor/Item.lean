import Lsl.Bytes

/-! Data items in the concise binary object representation. Reading accepts one well-formed item of
bounded depth, with lengths given or open. -/
namespace Lsl.Cbor

/-- A data item. A map lists its keys and values in turn; a text keeps the chunks it came in. -/
inductive Item where
  | uint (n : Nat)
  /-- The negative number `-1 - n`. -/
  | nint (n : Nat)
  | bytes (content : Bytes)
  | text (chunks : List Bytes)
  | array (items : List Item)
  | map (entries : List Item)
  | tag (number : Nat) (content : Item)
  | simple (n : Nat)
  | half (bits : UInt16)
  | single (bits : UInt32)
  | double (bits : UInt64)
deriving Inhabited

namespace Item

def maxDepth : Nat := 32

/-- What stands in front of an item: its major type, the five bits of information, and the argument,
which an open length lacks. -/
structure Head where
  major : Nat
  info : Nat
  argument : Option Nat

def take? (n : Nat) (bs : Bytes) : Option (Bytes × Bytes) :=
  if n ≤ bs.length then some (bs.take n, bs.drop n) else none

/-- Reads a head. Information from 28 to 30 is reserved. -/
def head? : Bytes → Option (Head × Bytes)
  | [] => none
  | b :: rest =>
    let major := b.toNat / 32
    let info := b.toNat % 32
    let sized (width : Nat) : Option (Head × Bytes) := do
      let (front, rest) ← take? width rest
      return (⟨major, info, some (natOfBytes front)⟩, rest)
    if info < 24 then some (⟨major, info, some info⟩, rest)
    else match info with
      | 24 => sized 1
      | 25 => sized 2
      | 26 => sized 4
      | 27 => sized 8
      | 31 => some (⟨major, info, none⟩, rest)
      | _ => none

def require? (holds : Bool) : Option Unit := if holds then some () else none

/-- The byte that ends an open length. -/
def stop : UInt8 := 0xff

/-- The chunks of a string of open length: strings of the same kind with given lengths. -/
def chunks? (major : Nat) : Nat → Bytes → Option (List Bytes × Bytes)
  | 0, _ => none
  | _, [] => none
  | fuel + 1, b :: rest =>
    if b = stop then some ([], rest)
    else do
      let (h, rest) ← head? (b :: rest)
      require? (h.major = major)
      let n ← h.argument
      let (content, rest) ← take? n rest
      let (more, rest) ← chunks? major fuel rest
      return (content :: more, rest)

/-- A string: one chunk of given length, or chunks up to the stop. -/
def string? (fuel : Nat) (h : Head) (bs : Bytes) : Option (List Bytes × Bytes) :=
  match h.argument with
  | none => chunks? h.major fuel bs
  | some n => do
    let (content, rest) ← take? n bs
    return ([content], rest)

/-- A simple value or a float. A simple value of two bytes is at least 32. -/
def primitive? (h : Head) : Option Item := do
  let n ← h.argument
  match h.info with
  | 24 => if n < 32 then none else some (simple n)
  | 25 => some (half (UInt16.ofNat n))
  | 26 => some (single (UInt32.ofNat n))
  | 27 => some (double (UInt64.ofNat n))
  | _ => some (simple n)

def startsTag : Bytes → Bool
  | b :: _ => b.toNat / 32 == 6
  | [] => false

mutual

/-- Reads an item inside `depth` arrays and maps. A tag on a tag counts as a level too. -/
def item? : Nat → Nat → Bytes → Option (Item × Bytes)
  | 0, _, _ => none
  | fuel + 1, depth, bs => do
    let (h, rest) ← head? bs
    match h.major with
    | 0 => return (uint (← h.argument), rest)
    | 1 => return (nint (← h.argument), rest)
    | 2 => do
      let (cs, rest) ← string? fuel h rest
      return (bytes cs.flatten, rest)
    | 3 => do
      let (cs, rest) ← string? fuel h rest
      return (text cs, rest)
    | 4 => do
      require? (depth < maxDepth)
      match h.argument with
      | some n => do
        let (is, rest) ← items? fuel (depth + 1) n rest
        return (array is, rest)
      | none => do
        let (is, rest) ← open? fuel (depth + 1) rest
        return (array is, rest)
    | 5 => do
      require? (depth < maxDepth)
      match h.argument with
      | some n => do
        let (is, rest) ← items? fuel (depth + 1) (2 * n) rest
        return (map is, rest)
      | none => do
        let (is, rest) ← open? fuel (depth + 1) rest
        require? (is.length % 2 = 0)
        return (map is, rest)
    | 6 => do
      let n ← h.argument
      let inner := if startsTag rest then depth + 1 else depth
      require? (inner ≤ maxDepth)
      let (content, rest) ← item? fuel inner rest
      return (tag n content, rest)
    | _ => return (← primitive? h, rest)

def items? : Nat → Nat → Nat → Bytes → Option (List Item × Bytes)
  | _, _, 0, bs => some ([], bs)
  | 0, _, _, _ => none
  | fuel + 1, depth, n + 1, bs => do
    let (i, rest) ← item? fuel depth bs
    let (is, rest) ← items? fuel depth n rest
    return (i :: is, rest)

/-- Reads items up to the stop. -/
def open? : Nat → Nat → Bytes → Option (List Item × Bytes)
  | 0, _, _ => none
  | _, _, [] => none
  | fuel + 1, depth, b :: rest =>
    if b = stop then some ([], rest)
    else do
      let (i, rest) ← item? fuel depth (b :: rest)
      let (is, rest) ← open? fuel depth rest
      return (i :: is, rest)

end

/-- The item that bytes hold, with nothing after it. Each level of reading takes at least half a
byte. -/
def ofBytes? (bs : Bytes) : Option Item :=
  match item? (2 * bs.length + 2) 0 bs with
  | some (i, []) => some i
  | _ => none

/-- The shortest head with a major type and an argument below `2 ^ 64`. -/
def head (major n : Nat) : Bytes :=
  let first (info : Nat) : UInt8 := UInt8.ofNat (major * 32 + info)
  if n < 24 then [first n]
  else if n < 0x100 then first 24 :: bigEndian 1 n
  else if n < 0x10000 then first 25 :: bigEndian 2 n
  else if n < 0x100000000 then first 26 :: bigEndian 4 n
  else first 27 :: bigEndian 8 n

def ofInt (n : Int) : Bytes := if n < 0 then head 1 (-1 - n).toNat else head 0 n.toNat

def ofText (content : Bytes) : Bytes := head 3 content.length ++ content

def null : Bytes := [0xf6]

end Item
end Lsl.Cbor
