import Lsl.Machine.Chunk
import Lsl.Proofs.Decoding
import Lsl.Proofs.Outcomes
import Mathlib.Data.List.TakeWhile

/-! Reading machine code loses nothing. What is read of any bytes stands in them without a gap from the
first byte on, written as its opcode calls for, and only an instruction that is cut off ends the reading
before the last byte. So codes that can be read to their ends are read one after the other. -/
namespace Lsl

open List

variable {rest : Bytes} {i : Instruction} {is : List Instruction}

variable {bs code : Bytes} {offset : Nat}

theorem natOfBytes_lt (bs : Bytes) : natOfBytes bs < 256 ^ bs.length := by
  induction bs with
  | nil => simp [natOfBytes]
  | cons b bs ih =>
    have hByte : b.toNat * 256 ^ bs.length ≤ 255 * 256 ^ bs.length :=
      Nat.mul_le_mul_right _ (Nat.le_of_lt_succ b.toNat_lt)
    rw [natOfBytes_cons, length_cons, Nat.pow_succ]
    omega

/-- Only the lowest digits of a number are written. -/
theorem bigEndian_add (width k n : Nat) : bigEndian width (k * 256 ^ width + n) = bigEndian width n := by
  induction width generalizing k with
  | zero => rfl
  | succ width ih =>
    have hShift : k * 256 ^ (width + 1) + n = k * 256 * 256 ^ width + n := by rw [Nat.pow_succ']; ring
    have hDigit : UInt8.ofNat (k * 256 + n / 256 ^ width) = UInt8.ofNat (n / 256 ^ width) := by
      rw [UInt8.ofNat_eq_iff_mod_eq_toNat, UInt8.toNat_ofNat', Nat.mul_add_mod_self_right]
    rw [bigEndian_succ, bigEndian_succ, hShift, ih, Nat.add_comm,
      Nat.add_mul_div_right _ _ (Nat.pow_pos (by decide)), Nat.add_comm, hDigit]

/-- Bytes are written back as they were read. -/
theorem bigEndian_natOfBytes (bs : Bytes) : bigEndian bs.length (natOfBytes bs) = bs := by
  induction bs with
  | nil => rfl
  | cons b bs ih =>
    have hDigit : (b.toNat * 256 ^ bs.length + natOfBytes bs) / 256 ^ bs.length = b.toNat := by
      rw [Nat.add_comm, Nat.add_mul_div_right _ _ (Nat.pow_pos (by decide)),
        Nat.div_eq_of_lt (natOfBytes_lt bs), Nat.zero_add]
    rw [length_cons, bigEndian_succ, natOfBytes_cons, hDigit, bigEndian_add, ih, UInt8.ofNat_toNat]

theorem word32_word32OfBytes (h : bs.length = 4) : word32 (word32OfBytes bs) = bs := by
  have hRange : natOfBytes bs < 2 ^ 32 := by
    have := natOfBytes_lt bs
    rwa [h] at this
  rw [word32, word32OfBytes, UInt32.toNat_ofNat_of_lt' hRange, ← h, bigEndian_natOfBytes]

theorem int32_int32OfBytes (h : bs.length = 4) : int32 (int32OfBytes bs) = bs := by
  rw [int32, int32OfBytes, UInt32.toUInt32_toInt32, word32_word32OfBytes h]

namespace Operand

/-- An operand of a fixed width is read from as many bytes at the front. -/
theorem split?_bind_eq_some {n : Nat} {f : Bytes × Bytes → Option (Operand × Bytes)}
    {r : Operand × Bytes} (h : (split? n bs).bind f = some r) :
    ∃ front rest : Bytes, front.length = n ∧ bs = front ++ rest ∧ f (front, rest) = some r := by
  obtain ⟨⟨front, rest⟩, hSplit, hRead⟩ := Option.bind_eq_some_iff.mp h
  unfold split? at hSplit
  split at hSplit
  · next hLong =>
    cases hSplit
    exact ⟨_, _, length_take_of_le hLong, (take_append_drop n bs).symm, hRead⟩
  · cases hSplit

theorem encode_readFloats (n : Nat) (h : bs.length = 4 * n) :
    (readFloats n bs).flatMap (fun x => word32 x.bits) = bs := by
  induction n generalizing bs with
  | zero => simpa [readFloats, eq_comm] using h
  | succ n ih =>
    have hFirst : (bs.take 4).length = 4 := by rw [length_take]; omega
    rw [readFloats, flatMap_cons, word32_word32OfBytes hFirst, ih (by rw [length_drop]; omega),
      take_append_drop]

/-- An operand that is read stands at the front of the bytes, as its kind is written. -/
theorem eq_encode_of_decode? {kind : OperandKind} {x : Operand} (h : decode? kind bs = some (x, rest)) :
    x.Fits kind ∧ bs = x.encode ++ rest := by
  cases kind with
  | none =>
    cases h
    exact ⟨.none, rfl⟩
  | string =>
    rw [decode?] at h
    split at h
    · cases h
    · next b more hDrop =>
      cases h
      obtain rfl : b = 0 := by
        have hStop := head_dropWhile_not (· != 0) (l := bs) (by simp [hDrop])
        simpa [hDrop] using hStop
      refine ⟨.string fun hMem => by simpa using mem_takeWhile_imp hMem, ?_⟩
      rw [encode, append_assoc, singleton_append, ← hDrop, takeWhile_append_dropWhile]
  | int =>
    obtain ⟨front, _, hFront, rfl, hRead⟩ := split?_bind_eq_some h
    cases hRead
    exact ⟨.int _, congrArg (· ++ rest) (int32_int32OfBytes hFront).symm⟩
  | float =>
    obtain ⟨front, _, hFront, rfl, hRead⟩ := split?_bind_eq_some h
    cases hRead
    exact ⟨.float _, congrArg (· ++ rest) (word32_word32OfBytes hFront).symm⟩
  | vector =>
    obtain ⟨front, _, hFront, rfl, hRead⟩ := split?_bind_eq_some h
    cases hRead
    exact ⟨.vector .., congrArg (· ++ rest) (encode_readFloats 3 hFront).symm⟩
  | rotation =>
    obtain ⟨front, _, hFront, rfl, hRead⟩ := split?_bind_eq_some h
    cases hRead
    exact ⟨.rotation .., congrArg (· ++ rest) (encode_readFloats 4 hFront).symm⟩
  | type | byte =>
    obtain ⟨front, _, hFront, rfl, hRead⟩ := split?_bind_eq_some h
    cases hRead
    obtain ⟨b, rfl⟩ := List.length_eq_one_iff.mp hFront
    exact ⟨by constructor, rfl⟩
  | typeJump =>
    obtain ⟨front, _, hFront, rfl, hRead⟩ := split?_bind_eq_some h
    cases hRead
    cases front with
    | nil => cases hFront
    | cons b front =>
      refine ⟨.typedJump .., ?_⟩
      rw [encode, drop_one, tail_cons, int32_int32OfBytes (Nat.succ_inj.mp hFront)]
      rfl
  | short =>
    obtain ⟨front, _, hFront, rfl, hRead⟩ := split?_bind_eq_some h
    cases hRead
    have hRange := natOfBytes_lt front
    rw [hFront] at hRange
    refine ⟨.short _, ?_⟩
    rw [encode, UInt16.toNat_ofNat_of_lt' hRange, ← hFront, bigEndian_natOfBytes]

end Operand

namespace Instruction

/-- An instruction is read at the front of bytes exactly if it stands there as its opcode calls for. -/
theorem decodeFront_eq_ok :
    decodeFront offset bs = .ok (i, rest) ↔
      i.offset = offset ∧ i.operand.Fits i.op.operandKind ∧ bs = i.encode ++ rest := by
  constructor
  · intro h
    cases bs with
    | nil => cases h
    | cons b bs =>
      simp only [decodeFront] at h
      split at h
      · next x more hOperand =>
        cases h
        obtain ⟨hFits, rfl⟩ := Operand.eq_encode_of_decode? hOperand
        exact ⟨rfl, hFits, rfl⟩
      · cases h
  · rintro ⟨rfl, hFits, rfl⟩
    simp only [encode, cons_append, decodeFront, Operand.decode?_encode hFits]

@[simp] theorem length_encode (i : Instruction) : i.encode.length = i.length := by
  simp [encode, length, Nat.add_comm]

theorem decodeAt_eq_ok (h : decodeAt code offset = .ok i) :
    i.offset = offset ∧ i.operand.Fits i.op.operandKind ∧
      code.drop offset = i.encode ++ code.drop (offset + i.length) := by
  obtain ⟨⟨i, rest⟩, hFront, rfl⟩ := map_eq_ok.mp h
  obtain ⟨hOffset, hFits, hCode⟩ := decodeFront_eq_ok.mp hFront
  refine ⟨hOffset, hFits, ?_⟩
  rw [← drop_drop, hCode, drop_left' i.length_encode]

/-- Reading from an offset on as long as there are bytes, until an instruction is cut off. -/
inductive Reads (code : Bytes) : Nat → List Instruction → Option Truncation → Prop where
  | ends {offset : Nat} (hEnd : code.length ≤ offset) : Reads code offset [] none
  | cut {offset : Nat} {e : Truncation} (hMore : offset < code.length)
      (hCut : decodeAt code offset = .error e) : Reads code offset [] (some e)
  | passes {offset : Nat} {i : Instruction} {is : List Instruction} {e : Option Truncation}
      (hMore : offset < code.length) (hRead : decodeAt code offset = .ok i)
      (hRest : Reads code (offset + i.length) is e) : Reads code offset (i :: is) e

/-- The reader comes to an end: every instruction takes a byte at least. -/
theorem decodeFrom_reads {fuel : Nat} (hFuel : code.length ≤ offset + fuel) :
    Reads code offset (decodeFrom fuel offset (code.drop offset)).1
      (decodeFrom fuel offset (code.drop offset)).2 := by
  induction fuel generalizing offset with
  | zero => exact .ends hFuel
  | succ fuel ih =>
    cases hBytes : code.drop offset with
    | nil => exact .ends (List.drop_eq_nil_iff.mp hBytes)
    | cons b bs =>
      have hMore : offset < code.length := by
        rw [← Nat.not_le, ← drop_eq_nil_iff, hBytes]
        simp
      cases hFront : decodeFront offset (code.drop offset) with
      | error e =>
        have hCut : decodeAt code offset = .error e := by rw [decodeAt, hFront]; rfl
        simp only [decodeFrom, ← hBytes, hFront]
        exact .cut hMore hCut
      | ok r =>
        obtain ⟨i, rest⟩ := r
        have hRead : decodeAt code offset = .ok i := by rw [decodeAt, hFront]; rfl
        obtain ⟨_, _, hCode⟩ := decodeFront_eq_ok.mp hFront
        rw [(decodeAt_eq_ok hRead).2.2] at hCode
        obtain rfl := append_cancel_left hCode
        simp only [decodeFrom, ← hBytes, hFront]
        exact .passes hMore hRead (ih (by rw [length]; omega))

/-- What was read stands without a gap from an offset on, and the bytes behind it start with an
instruction that is cut off. -/
theorem Reads.covers {e : Option Truncation} (h : Reads code offset is e) (hOffset : offset ≤ code.length) :
    ∃ stop ≤ code.length, Cover offset stop is ∧ (∀ i ∈ is, i.operand.Fits i.op.operandKind) ∧
      code.drop offset = is.flatMap encode ++ code.drop stop ∧
      (e = none ∧ stop = code.length ∨
        ∃ t, e = some t ∧ stop < code.length ∧ decodeAt code stop = .error t) := by
  induction h with
  | ends hEnd => exact ⟨_, hOffset, rfl, by simp, rfl, .inl ⟨rfl, by omega⟩⟩
  | cut hMore hCut => exact ⟨_, hOffset, rfl, by simp, rfl, .inr ⟨_, rfl, hMore, hCut⟩⟩
  | @passes offset i is e hMore hRead hRest ih =>
    obtain ⟨hAt, hFits, hCode⟩ := decodeAt_eq_ok hRead
    have hNext : offset + i.length ≤ code.length := by
      have hLength := congrArg List.length hCode
      simp only [length_drop, length_append, length_encode] at hLength
      omega
    obtain ⟨stop, hStop, hCover, hAll, hRestCode, hLast⟩ := ih hNext
    refine ⟨stop, hStop, ⟨hAt, hCover⟩, List.forall_mem_cons.mpr ⟨hFits, hAll⟩, ?_, hLast⟩
    rw [hCode, hRestCode, flatMap_cons, append_assoc]

def shift (n : Nat) (i : Instruction) : Instruction := { i with offset := n + i.offset }

theorem locate_shift (n start : Nat) (ms : List (Opcode × Operand)) :
    locate (n + start) ms = (locate start ms).map (shift n) := by
  induction ms generalizing start with
  | nil => rfl
  | cons m ms ih => rw [locate, locate, map_cons, Nat.add_assoc, ih, shift]

theorem Cover.eq_locate {start stop : Nat} (h : Cover start stop is) :
    is = locate start (is.map fun i => (i.op, i.operand)) := by
  induction is generalizing start with
  | nil => rfl
  | cons i is ih =>
    obtain ⟨rfl, hRest⟩ := h
    exact congrArg (i :: ·) (ih hRest)

/-- A code that is read to its end is written of the instructions that are read. -/
theorem eq_encodeAll_of_decodeAll (h : (decodeAll code).2 = none) :
    ∃ ms : List (Opcode × Operand), (∀ m ∈ ms, m.2.Fits m.1.operandKind) ∧ code = encodeAll ms ∧
      (decodeAll code).1 = locate 0 ms := by
  have hReads : Reads code 0 (decodeAll code).1 (decodeAll code).2 := decodeFrom_reads (by omega)
  obtain ⟨stop, -, hCover, hFits, hCode, ⟨-, rfl⟩ | ⟨t, hCut, -⟩⟩ := hReads.covers (Nat.zero_le _)
  · refine ⟨_, ?_, ?_, hCover.eq_locate⟩
    · simpa using hFits
    · rw [drop_length, append_nil, drop_zero] at hCode
      rw [encodeAll, flatMap_map]
      exact hCode
  · rw [hCut] at h
    cases h

theorem code_foldl_emit (is : List Instruction) (c : Chunk) :
    (is.foldl (fun c i => c.emit i.op i.operand) c).code = c.code ++ is.flatMap encode := by
  induction is generalizing c with
  | nil => simp
  | cons i is ih =>
    rw [foldl_cons, ih, flatMap_cons, ← append_assoc]
    rfl

/-- Reading comes to an end for all bytes. The instructions stand without a gap from the first byte on,
their operands are of the kinds that their opcodes call for, and emitting them again gives the bytes in
which they stand: all of them, or those before an instruction that is cut off. Two codes that are read to
their ends are read as one. -/
theorem decodeAll_lossless (code : Bytes) :
    Reads code 0 (decodeAll code).1 (decodeAll code).2 ∧
    (∃ stop ≤ code.length, Cover 0 stop (decodeAll code).1 ∧
      (∀ i ∈ (decodeAll code).1, i.operand.Fits i.op.operandKind) ∧
      ((decodeAll code).1.foldl (fun c i => c.emit i.op i.operand) ({} : Chunk)).code = code.take stop ∧
      ((decodeAll code).2 = none ∧ stop = code.length ∨
        ∃ t, (decodeAll code).2 = some t ∧ stop < code.length ∧ decodeAt code stop = .error t)) ∧
    ∀ other, (decodeAll code).2 = none → (decodeAll other).2 = none →
      decodeAll (code ++ other) =
        ((decodeAll code).1 ++ (decodeAll other).1.map (shift code.length), none) := by
  have hReads : Reads code 0 (decodeAll code).1 (decodeAll code).2 := decodeFrom_reads (by omega)
  refine ⟨hReads, ?_, fun other hCode hOther => ?_⟩
  · obtain ⟨stop, hStop, hCover, hFits, hCode, hLast⟩ := hReads.covers (Nat.zero_le _)
    refine ⟨stop, hStop, hCover, hFits, ?_, hLast⟩
    have hSplit : code.take stop ++ code.drop stop = _ ++ code.drop stop :=
      (take_append_drop stop code).trans hCode
    rw [code_foldl_emit, nil_append, append_cancel_right hSplit]
  · obtain ⟨ms, hms, rfl, hFirst⟩ := eq_encodeAll_of_decodeAll hCode
    obtain ⟨ns, hns, rfl, hSecond⟩ := eq_encodeAll_of_decodeAll hOther
    have hAll : ∀ m ∈ ms ++ ns, m.2.Fits m.1.operandKind :=
      fun m hm => (List.mem_append.mp hm).elim (hms m) (hns m)
    rw [hFirst, hSecond, ← encodeAll_append, decodeAll_encodeAll hAll, locate_append, Nat.zero_add,
      ← locate_shift, Nat.add_zero]

end Instruction
end Lsl
