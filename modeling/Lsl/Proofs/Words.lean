import Lsl.Bytes
import Mathlib.Tactic.Ring

/-! Numbers as bytes and back. Writing a number in a fixed width keeps it modulo the range of that
width, so every word is read as it was written. -/
namespace Lsl

theorem bigEndian_zero (n : Nat) : bigEndian 0 n = [] := rfl

theorem bigEndian_succ (width n : Nat) :
    bigEndian (width + 1) n = UInt8.ofNat (n / 256 ^ width) :: bigEndian width n := rfl

@[simp] theorem length_bigEndian (width n : Nat) : (bigEndian width n).length = width := by
  induction width with
  | zero => rfl
  | succ width ih => simp [bigEndian_succ, ih]

/-- Bytes are digits: those read so far count once more for each byte that follows. -/
theorem foldl_digits (bs : Bytes) (m : Nat) :
    bs.foldl (fun n b => n * 256 + b.toNat) m = m * 256 ^ bs.length + natOfBytes bs := by
  induction bs generalizing m with
  | nil => simp [natOfBytes]
  | cons b bs ih =>
    have hHead : natOfBytes (b :: bs) = b.toNat * 256 ^ bs.length + natOfBytes bs := by
      rw [natOfBytes, List.foldl_cons, ih, Nat.zero_mul, Nat.zero_add]
    rw [List.foldl_cons, ih, hHead, List.length_cons, Nat.pow_succ]
    ring

theorem natOfBytes_cons (b : UInt8) (bs : Bytes) :
    natOfBytes (b :: bs) = b.toNat * 256 ^ bs.length + natOfBytes bs := by
  rw [natOfBytes, List.foldl_cons, foldl_digits, Nat.zero_mul, Nat.zero_add]

/-- What is read of a number is the number modulo the range of its width. -/
theorem natOfBytes_bigEndian (width n : Nat) :
    natOfBytes (bigEndian width n) = n % 256 ^ width := by
  induction width with
  | zero => simp [bigEndian_zero, natOfBytes, Nat.mod_one]
  | succ width ih =>
    have hDigit : (UInt8.ofNat (n / 256 ^ width)).toNat = n / 256 ^ width % 256 := by
      simp [UInt8.toNat_ofNat']
    rw [bigEndian_succ, natOfBytes_cons, ih, length_bigEndian, hDigit, Nat.pow_succ, Nat.mod_mul]
    ring

@[simp] theorem length_word32 (n : UInt32) : (word32 n).length = 4 := length_bigEndian ..

@[simp] theorem length_int32 (n : Int32) : (int32 n).length = 4 := length_word32 _

@[simp] theorem length_intWord (n : Int) : (intWord n).length = 4 := length_int32 _

@[simp] theorem length_word64 (n : UInt64) : (word64 n).length = 8 := length_bigEndian ..

@[simp] theorem word32OfBytes_word32 (n : UInt32) : word32OfBytes (word32 n) = n := by
  have hRange : n.toNat < 256 ^ 4 := n.toNat_lt
  rw [word32OfBytes, word32, natOfBytes_bigEndian, Nat.mod_eq_of_lt hRange]
  exact UInt32.ofNat_toNat

@[simp] theorem int32OfBytes_int32 (n : Int32) : int32OfBytes (int32 n) = n := by
  rw [int32OfBytes, int32, word32OfBytes_word32]
  exact Int32.toInt32_toUInt32 n

@[simp] theorem ofNat_natOfBytes_word64 (n : UInt64) :
    UInt64.ofNat (natOfBytes (word64 n)) = n := by
  have hRange : n.toNat < 256 ^ 8 := n.toNat_lt
  rw [word64, natOfBytes_bigEndian, Nat.mod_eq_of_lt hRange]
  exact UInt64.ofNat_toNat

@[simp] theorem ofNat_natOfBytes_short (n : UInt16) :
    UInt16.ofNat (natOfBytes (bigEndian 2 n.toNat)) = n := by
  have hRange : n.toNat < 256 ^ 2 := n.toNat_lt
  rw [natOfBytes_bigEndian, Nat.mod_eq_of_lt hRange]
  exact UInt16.ofNat_toNat

/-- A number of 31 bits is read from its word with its sign. -/
theorem toInt_ofInt {n : Int} (hLow : -2 ^ 31 ≤ n) (hHigh : n < 2 ^ 31) :
    (Int32.ofInt n).toInt = n :=
  Int32.toInt_ofInt_of_le hLow hHigh

end Lsl
