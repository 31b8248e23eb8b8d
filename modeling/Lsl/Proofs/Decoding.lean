import Lsl.Machine.Instruction
import Lsl.Proofs.Words

/-! Reading machine instructions. An operand of the kind that its opcode calls for is read back from
its bytes, whatever follows; instructions written one after the other are therefore read as they were
written, each at the end of the one before. -/
namespace Lsl

open List

variable {ms : List (Opcode × Operand)}

theorem Opcode.eq_of_isJump {o : Opcode} (h : o.isJump = true) : o = .jump ∨ o = .jumpIf ∨
    o = .jumpNot := by
  obtain ⟨b⟩ := o
  simp only [isJump, Bool.and_eq_true, decide_eq_true_eq, UInt8.le_iff_toNat_le, UInt8.reduceToNat] at h
  simp only [jump, jumpIf, jumpNot, mk.injEq, ← UInt8.toNat_inj, UInt8.reduceToNat]
  omega

namespace Operand

/-- Operands of a kind that can be told from what follows them: a text holds no NUL, and a vector or
rotation has all its components. -/
inductive Fits : OperandKind → Operand → Prop where
  | none : Fits .none none
  | int (n : Int32) : Fits .int (int n)
  | float (x : Single) : Fits .float (float x)
  | string {s : Bytes} (h : 0 ∉ s) : Fits .string (string s)
  | vector (x y z : Single) : Fits .vector (floats [x, y, z])
  | rotation (x y z s : Single) : Fits .rotation (floats [x, y, z, s])
  | types (b : UInt8) : Fits .type (types b)
  | typedJump (b : UInt8) (n : Int32) : Fits .typeJump (typedJump b n)
  | byte (n : UInt8) : Fits .byte (byte n)
  | short (n : UInt16) : Fits .short (short n)

@[simp] theorem length_encode (x : Operand) : x.encode.length = x.size := by
  cases x with
  | floats xs =>
    induction xs with
    | nil => rfl
    | cons x xs ih =>
      simp only [encode, size, flatMap_cons, length_append, length_word32,
        length_cons] at ih ⊢
      omega
  | _ => simp [encode, size]

theorem split?_append {n : Nat} {front : Bytes} (h : front.length = n) (rest : Bytes) :
    split? n (front ++ rest) = some (front, rest) := by
  subst h
  simp [split?]

theorem readFloats_encode (xs : List Single) :
    readFloats xs.length (xs.flatMap fun x => word32 x.bits) = xs := by
  induction xs with
  | nil => rfl
  | cons x xs ih =>
    rw [flatMap_cons, length_cons, readFloats, take_left' (length_word32 _),
      drop_left' (length_word32 _), ih, word32OfBytes_word32]

/-- An operand is read back from its bytes, and what follows them is left. -/
theorem decode?_encode {kind : OperandKind} {x : Operand} (h : x.Fits kind) (rest : Bytes) :
    decode? kind (x.encode ++ rest) = some (x, rest) := by
  cases h with
  | none => rfl
  | int n =>
    have hSplit := split?_append (length_int32 n) rest
    simp [decode?, encode, hSplit]
  | float x =>
    have hSplit := split?_append (length_word32 x.bits) rest
    simp [decode?, encode, hSplit]
  | string h =>
    rename_i s
    have hText : ∀ b ∈ s, (b != 0) = true := by
      intro b hb
      exact bne_iff_ne.mpr fun hZero => h (hZero ▸ hb)
    simp [decode?, encode, dropWhile_append_of_pos hText,
      takeWhile_append_of_pos hText]
  | vector x y z =>
    have hSplit := split?_append (length_encode (floats [x, y, z])) rest
    have hFloats := readFloats_encode [x, y, z]
    exact (congrArg (· >>= _) hSplit).trans (congrArg (fun xs => some (floats xs, rest)) hFloats)
  | rotation x y z s =>
    have hSplit := split?_append (length_encode (floats [x, y, z, s])) rest
    have hFloats := readFloats_encode [x, y, z, s]
    exact (congrArg (· >>= _) hSplit).trans (congrArg (fun xs => some (floats xs, rest)) hFloats)
  | types b | byte b => simp [decode?, encode, split?]
  | typedJump b n =>
    have hSplit := split?_append (length_encode (typedJump b n)) rest
    simp only [encode, size, cons_append] at hSplit
    simp [decode?, encode, hSplit]
  | short n =>
    have hSplit := split?_append (length_bigEndian 2 n.toNat) rest
    simp [decode?, encode, hSplit]

end Operand

namespace Instruction

/-- Instructions one after the other, the first of which stands at `start`. -/
def locate (start : Nat) : List (Opcode × Operand) → List Instruction
  | [] => []
  | (op, x) :: rest => ⟨start, op, x⟩ :: locate (start + (1 + x.size)) rest

def encodeAll (ms : List (Opcode × Operand)) : Bytes := ms.flatMap fun m => m.1.byte :: m.2.encode

def room (is : List Instruction) : Nat := (is.map length).sum

/-- Instructions that follow each other from `start` to `stop` without a gap. -/
def Cover (start stop : Nat) : List Instruction → Prop
  | [] => start = stop
  | i :: is => i.offset = start ∧ Cover (start + i.length) stop is

@[simp] theorem encodeAll_nil : encodeAll [] = [] := rfl

@[simp] theorem encodeAll_cons (op : Opcode) (x : Operand) (ms : List (Opcode × Operand)) :
    encodeAll ((op, x) :: ms) = op.byte :: x.encode ++ encodeAll ms := rfl

@[simp] theorem encodeAll_append (ms ns : List (Opcode × Operand)) :
    encodeAll (ms ++ ns) = encodeAll ms ++ encodeAll ns := flatMap_append ..

theorem length_encodeAll (ms : List (Opcode × Operand)) (start : Nat) :
    (encodeAll ms).length = room (locate start ms) := by
  induction ms generalizing start with
  | nil => rfl
  | cons m ms ih =>
    obtain ⟨op, x⟩ := m
    simp only [room, encodeAll_cons, locate, map_cons, sum_cons, cons_append,
      length_cons, length_append, Operand.length_encode, length] at ih ⊢
    rw [ih (start + (1 + x.size))]
    omega

theorem locate_append (start : Nat) (ms ns : List (Opcode × Operand)) :
    locate start (ms ++ ns) = locate start ms ++ locate (start + (encodeAll ms).length) ns := by
  induction ms generalizing start with
  | nil => rfl
  | cons m ms ih =>
    obtain ⟨op, x⟩ := m
    have hNext : start + (encodeAll ((op, x) :: ms)).length =
        start + (1 + x.size) + (encodeAll ms).length := by
      simp only [encodeAll_cons, cons_append, length_cons, length_append,
        Operand.length_encode]
      omega
    rw [hNext, cons_append, locate, ih, locate, cons_append]

theorem cover_locate (start : Nat) (ms : List (Opcode × Operand)) :
    Cover start (start + (encodeAll ms).length) (locate start ms) := by
  induction ms generalizing start with
  | nil => rfl
  | cons m ms ih =>
    obtain ⟨op, x⟩ := m
    refine ⟨rfl, ?_⟩
    have hNext := ih (start + (1 + x.size))
    simp only [encodeAll_cons, cons_append, length_cons, length_append,
      Operand.length_encode, length] at hNext ⊢
    convert hNext using 1
    omega

/-- Where instructions stand without a gap, each place between two of them is the start of one or
the end of all. -/
theorem Cover.boundary {start stop : Nat} {is js : List Instruction}
    (h : Cover start stop (is ++ js)) :
    start + room is = stop ∨ ∃ j ∈ js, j.offset = start + room is := by
  induction is generalizing start with
  | nil =>
    cases js with
    | nil => exact Or.inl h
    | cons j js => exact Or.inr ⟨j, by simp, h.1⟩
  | cons i is ih =>
    have hRoom : start + room (i :: is) = start + i.length + room is := by
      simp only [room, map_cons, sum_cons]
      omega
    rw [hRoom]
    exact ih h.2

/-- Instructions whose operands fit are read back from their bytes, and nothing else is. The fuel of
the reader is enough because every instruction takes at least a byte. -/
theorem decodeFrom_encodeAll (h : ∀ m ∈ ms, m.2.Fits m.1.operandKind) {fuel : Nat} (start : Nat)
    (hFuel : ms.length ≤ fuel) :
    decodeFrom fuel start (encodeAll ms) = (locate start ms, none) := by
  induction ms generalizing fuel start with
  | nil => cases fuel <;> rfl
  | cons m ms ih =>
    obtain ⟨op, x⟩ := m
    cases fuel with
    | zero => simp at hFuel
    | succ fuel =>
      have hFits : x.Fits op.operandKind := h (op, x) (by simp)
      have hFront : decodeFront start (encodeAll ((op, x) :: ms)) =
          .ok (⟨start, op, x⟩, encodeAll ms) := by
        simp only [encodeAll_cons, cons_append, decodeFront,
          Operand.decode?_encode hFits]
      have hRest := ih (fun m hm => h m (by simp [hm])) (start + (1 + x.size))
        (by simpa using hFuel)
      rw [encodeAll_cons, cons_append, decodeFrom, ← cons_append, ← encodeAll_cons,
        hFront]
      simp only [length, hRest, locate]
      · intro hNil
        simp at hNil

theorem decodeAll_encodeAll (h : ∀ m ∈ ms, m.2.Fits m.1.operandKind) :
    decodeAll (encodeAll ms) = (locate 0 ms, none) := by
  refine decodeFrom_encodeAll h 0 ?_
  induction ms with
  | nil => simp
  | cons m ms ih =>
    have hRest := ih fun m hm => h m (by simp [hm])
    obtain ⟨op, x⟩ := m
    simp only [encodeAll_cons, cons_append, length_cons, length_append]
    omega

end Instruction
end Lsl
