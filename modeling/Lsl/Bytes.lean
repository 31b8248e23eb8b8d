/-! Whole numbers as big-endian bytes. -/
namespace Lsl

abbrev Bytes := List UInt8

/-- The lowest `width` bytes of `n`, the most significant first. -/
def bigEndian : Nat → Nat → Bytes
  | 0, _ => []
  | width + 1, n => UInt8.ofNat (n / 256 ^ width) :: bigEndian width n

def natOfBytes (bs : Bytes) : Nat := bs.foldl (fun n b => n * 256 + b.toNat) 0

def word32 (n : UInt32) : Bytes := bigEndian 4 n.toNat

def int32 (n : Int32) : Bytes := word32 n.toUInt32

def intWord (n : Int) : Bytes := int32 (Int32.ofInt n)

def word64 (n : UInt64) : Bytes := bigEndian 8 n.toNat

def word32OfBytes (bs : Bytes) : UInt32 := UInt32.ofNat (natOfBytes bs)

def int32OfBytes (bs : Bytes) : Int32 := (word32OfBytes bs).toInt32

end Lsl
