import Lsl.Bytes
import Lsl.Machine.Opcode
import Lsl.Single.Decimal

/-! Machine instructions: their bytes, the reader of bytes, and listings. -/
namespace Lsl

inductive Operand where
  | none
  | int (n : Int32)
  | float (x : Single)
  /-- A text without its final NUL. -/
  | string (text : Bytes)
  /-- The components of a vector or rotation. -/
  | floats (xs : List Single)
  /-- Two type tags. -/
  | types (b : UInt8)
  /-- Two type tags and a displacement. -/
  | typedJump (b : UInt8) (n : Int32)
  | byte (n : UInt8)
  | short (n : UInt16)

namespace Operand

def encode : Operand → Bytes
  | none => []
  | int n => int32 n
  | float x => word32 x.bits
  | string s => s ++ [0]
  | floats xs => xs.flatMap fun x => word32 x.bits
  | types b => [b]
  | typedJump b n => b :: int32 n
  | byte n => [n]
  | short n => bigEndian 2 n.toNat

def size : Operand → Nat
  | none => 0
  | int _ => 4
  | float _ => 4
  | string s => s.length + 1
  | floats xs => 4 * xs.length
  | types _ => 1
  | typedJump _ _ => 5
  | byte _ => 1
  | short _ => 2

/-- The whole number an operand holds: a value, displacement or index. -/
def intValue : Operand → Int32
  | int n | typedJump _ n => n
  | byte n => Int32.ofNat n.toNat
  | short n => Int32.ofNat n.toNat
  | _ => 0

def typeByte : Operand → UInt8
  | types b | typedJump b _ => b
  | _ => 0

def split? (n : Nat) (bs : Bytes) : Option (Bytes × Bytes) :=
  if n ≤ bs.length then some (bs.take n, bs.drop n) else Option.none

def readFloats : Nat → Bytes → List Single
  | 0, _ => []
  | n + 1, bs => ⟨word32OfBytes (bs.take 4)⟩ :: readFloats n (bs.drop 4)

/-- Reads an operand from the front of bytes and returns what follows it. -/
def decode? (kind : OperandKind) (bs : Bytes) : Option (Operand × Bytes) :=
  match kind with
  | .none => some (none, bs)
  | .int => do
    let (front, rest) ← split? 4 bs
    return (int (int32OfBytes front), rest)
  | .float => do
    let (front, rest) ← split? 4 bs
    return (float ⟨word32OfBytes front⟩, rest)
  | .string =>
    match bs.dropWhile (· != 0) with
    | [] => Option.none
    | _ :: rest => some (string (bs.takeWhile (· != 0)), rest)
  | .vector => do
    let (front, rest) ← split? 12 bs
    return (floats (readFloats 3 front), rest)
  | .rotation => do
    let (front, rest) ← split? 16 bs
    return (floats (readFloats 4 front), rest)
  | .type => do
    let (front, rest) ← split? 1 bs
    return (types (front.headD 0), rest)
  | .typeJump => do
    let (front, rest) ← split? 5 bs
    return (typedJump (front.headD 0) (int32OfBytes (front.drop 1)), rest)
  | .byte => do
    let (front, rest) ← split? 1 bs
    return (byte (front.headD 0), rest)
  | .short => do
    let (front, rest) ← split? 2 bs
    return (short (UInt16.ofNat (natOfBytes front)), rest)

end Operand

structure Instruction where
  offset : Nat
  op : Opcode
  operand : Operand

inductive Truncation where
  | pastEnd (offset : Nat)
  | operand (op : Opcode) (offset : Nat)
  | unterminated (offset : Nat)
deriving DecidableEq

namespace Truncation

def message : Truncation → String
  | pastEnd o => s!"truncated instruction at {Text.upperHex 4 o}"
  | operand op o => s!"truncated instruction: {op.name} at {Text.upperHex 4 o}"
  | unterminated o => s!"truncated instruction: unterminated string at {Text.upperHex 4 o}"

end Truncation

namespace Instruction

def length (i : Instruction) : Nat := 1 + i.operand.size

def encode (i : Instruction) : Bytes := i.op.byte :: i.operand.encode

/-- Where the displacement leads, counted from the end of the instruction. -/
def target (i : Instruction) : Int := i.offset + i.length + i.operand.intValue.toInt

/-- Reads the instruction at the front of bytes that stand at `offset`, and returns the bytes that
follow it. -/
def decodeFront (offset : Nat) : Bytes → Except Truncation (Instruction × Bytes)
  | [] => .error (.pastEnd offset)
  | b :: rest =>
    let op : Opcode := ⟨b⟩
    match Operand.decode? op.operandKind rest with
    | some (operand, more) => .ok (⟨offset, op, operand⟩, more)
    | none =>
      .error (if op.operandKind = .string then .unterminated offset else .operand op offset)

def decodeAt (code : Bytes) (offset : Nat) : Except Truncation Instruction :=
  (decodeFront offset (code.drop offset)).map (·.1)

/-- Reads instructions until the bytes end or one of them is cut off. -/
def decodeFrom (fuel offset : Nat) (bs : Bytes) : List Instruction × Option Truncation :=
  match fuel, bs with
  | 0, _ | _, [] => ([], none)
  | fuel + 1, bs =>
    match decodeFront offset bs with
    | .error e => ([], some e)
    | .ok (i, rest) =>
      let (more, e) := decodeFrom fuel (offset + i.length) rest
      (i :: more, e)

/-- All instructions of a code, and what cut the reading short. Each takes at least one byte. -/
def decodeAll (code : Bytes) : List Instruction × Option Truncation :=
  decodeFrom code.length 0 code

/-- Type tags as listings show them: a cast has an arrow, a right tag of zero is left out. -/
def typesText (op : Opcode) (b : UInt8) : String :=
  let (l, r) := Ty.ofPair b
  if op = .cast then l.name ++ "->" ++ r.name
  else if r = .void then l.name
  else l.name ++ "," ++ r.name

def operandText (i : Instruction) : Option String :=
  let goal := " -> " ++ Text.upperHex 4 i.target
  match i.operand with
  | .none => none
  | .int n =>
    some (if i.op = .jump then Text.signed n.toInt ++ goal else toString n.toInt)
  | .float x => some x.general
  | .string s => some (Text.quoteBytes s)
  | .floats xs => some ("<" ++ ", ".intercalate (xs.map Single.general) ++ ">")
  | .types b => some (typesText i.op b)
  | .typedJump b n => some ((Ty.ofPair b).1.name ++ " " ++ Text.signed n.toInt ++ goal)
  | .byte n => some (toString n.toNat)
  | .short n => some (toString n.toNat)

def text (i : Instruction) : String :=
  match i.operandText with
  | none => i.op.name
  | some s => Text.padRight 16 i.op.name ++ " " ++ s

/-- A listing with the address of each instruction, where the first one stands at `base`. -/
def listing (code : Bytes) (base : Int) : String :=
  let (is, e) := decodeAll code
  let address (o : Nat) := Text.upperHex 4 (base + o)
  let lines := is.map fun i => address i.offset ++ "  " ++ i.text ++ "\n"
  let next := is.foldl (fun n i => n + i.length) 0
  let last := match e with
    | none => ""
    | some e => address next ++ "  <" ++ e.message ++ ">\n"
  String.join lines ++ last

end Instruction
end Lsl
