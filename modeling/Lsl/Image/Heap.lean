import Lsl.Bytes
import Lsl.Code.Value

/-! The heap of an image. A value is stored in a block of size, type, reference count and data, and
is known by the place of its block, counted from one. An empty block ends the heap. -/
namespace Lsl

inductive HeapError where
  | element (place : Nat) (t : Ty)
  | notStored (t : Ty)
deriving DecidableEq

def HeapError.message : HeapError → String
  | element i t => s!"list element {i}: cannot store {t.name} in a list"
  | notStored t => s!"{t.name} is not a heap type"

/-- A value in place. A text ends in a NUL; lists and values without content take no bytes. -/
def Value.inline : Value → Bytes
  | .integer n => int32 n
  | .float x => word32 x.bits
  | .string s | .key s => Text.bytes s ++ [0]
  | .vector x y z => [x, y, z].flatMap fun c => word32 c.bits
  | .rotation x y z s => [x, y, z, s].flatMap fun c => word32 c.bits
  | .list _ | .void | .unknown _ => []

structure Heap where
  bytes : Bytes := []

namespace Heap

def headerSize : Nat := 7

/-- The elements of a list, of which the first has the number `place`: a tag and the value. -/
def elements (place : Nat) : List Value → Except HeapError Bytes
  | [] => .ok []
  | v :: vs =>
    if v.ty = .list ∨ v.ty = .void ∨ !v.ty.isKnown then .error (.element place v.ty)
    else (elements (place + 1) vs).map fun rest => UInt8.ofNat v.ty.tag :: v.inline ++ rest

def data : Value → Except HeapError Bytes
  | .string s | .key s => .ok (Text.bytes s ++ [0])
  | .list vs => (elements 0 vs).map fun es => intWord vs.length ++ es
  | v => .error (.notStored v.ty)

def block (t : Ty) (content : Bytes) : Bytes :=
  intWord content.length ++ UInt8.ofNat t.tag :: bigEndian 2 1 ++ content

def add (h : Heap) (v : Value) : Except HeapError (Heap × Int32) :=
  (data v).map fun content =>
    (⟨h.bytes ++ block v.ty content⟩, Int32.ofNat (h.bytes.length + 1))

def encode (h : Heap) : Bytes := h.bytes ++ List.replicate headerSize 0

end Heap
end Lsl
