import Lsl.Image.Read
import Lsl.Proofs.Outcomes
import Lsl.Proofs.Words

/-! Reading at an offset. Data holds bytes at an offset when they stand there; each access to an image
then gives what was written, and the parts of a table or of a run of entries are found at the offsets
where they start. -/
namespace Lsl.Image

open List

variable {width : Nat} {bs name : Bytes} {b : UInt8}

/-- The bytes stand in the data from an offset on. -/
def Holds (data : Array UInt8) (pos : Int) (bs : Bytes) : Prop :=
  ∃ front rest : Bytes, data.toList = front ++ bs ++ rest ∧ (front.length : Int) = pos

theorem length_rows {α : Type} {encode : α → Bytes} (hWidth : ∀ r, (encode r).length = width)
    (rows : List α) :
    (rows.flatMap encode).length = width * rows.length := by
  induction rows with
  | nil => simp
  | cons r rows ih => simp [ih, hWidth, Nat.mul_add, Nat.add_comm]

variable {data : Array UInt8} {pos : Int}

namespace Holds

theorem shift {pos' : Int} (h : Holds data pos bs) (hPos : pos = pos') :
    Holds data pos' bs := hPos ▸ h

theorem left {a b : Bytes} (h : Holds data pos (a ++ b)) : Holds data pos a := by
  obtain ⟨front, rest, hData, hPos⟩ := h
  exact ⟨front, b ++ rest, by simpa using hData, hPos⟩

theorem right {a b : Bytes} (h : Holds data pos (a ++ b)) : Holds data (pos + a.length) b := by
  obtain ⟨front, rest, hData, hPos⟩ := h
  refine ⟨front ++ a, rest, by simpa using hData, ?_⟩
  rw [length_append, Nat.cast_add, hPos]

theorem head (h : Holds data pos (b :: bs)) : Holds data pos [b] :=
  @left data pos [b] bs h

theorem tail (h : Holds data pos (b :: bs)) : Holds data (pos + 1) bs :=
  @right data pos [b] bs h

theorem bounds (h : Holds data pos bs) : 0 ≤ pos ∧ pos + bs.length ≤ data.size := by
  obtain ⟨front, rest, hData, hPos⟩ := h
  have hSize : data.size = front.length + bs.length + rest.length := by
    rw [← Array.length_toList, hData, length_append, length_append]
  omega

/-- What is cut out of the data at an offset is what stands there. -/
theorem extract (h : Holds data pos bs) {stop : Nat} (hStop : stop = pos.toNat + bs.length) :
    (data.extract pos.toNat stop).toList = bs := by
  obtain ⟨front, rest, hData, hPos⟩ := h
  have hFront : pos.toNat = front.length := by omega
  rw [Array.toList_extract, extract_eq_take_drop, hData, hFront, append_assoc,
    drop_left, hStop, hFront, Nat.add_sub_cancel_left, take_left]

theorem slice (h : Holds data pos bs) {stop : Int} (hStop : stop = pos + bs.length) :
    slice data pos stop = .ok bs := by
  have hBounds := h.bounds
  rw [Image.slice, if_neg (by omega), h.extract (by omega)]

theorem word {n : Int32} (h : Holds data pos (int32 n)) : wordAt data pos = .ok n.toInt := by
  have hBounds := h.bounds
  rw [length_int32] at hBounds
  rw [wordAt, if_neg (by omega), h.extract (by simp), int32OfBytes_int32]

theorem number {n : Nat} (h : Holds data pos (intWord n)) (hRange : n < 2 ^ 31) :
    wordAt data pos = .ok n := by
  rw [h.word, toInt_ofInt (by omega) (by omega)]

theorem long {n : UInt64} (h : Holds data pos (word64 n)) : longAt data pos = .ok n := by
  have hBounds := h.bounds
  rw [length_word64] at hBounds
  rw [longAt, if_neg (by omega), h.extract (by simp), ofNat_natOfBytes_word64]

theorem byte (h : Holds data pos [b]) : byteAt data pos = .ok b := by
  have hBounds := h.bounds
  obtain ⟨front, rest, hData, hPos⟩ := h
  have hFront : pos.toNat = front.length := by omega
  have hGet : data[pos.toNat]? = some b := by
    rw [← Array.getElem?_toList, hData, hFront, append_assoc, List.getElem?_append_right le_rfl]
    simp
  rw [byteAt, if_neg (by omega), hGet]

/-- Bytes without a NUL end at the first one. -/
theorem takeWhile (h : Holds data pos (name ++ [0])) (hName : 0 ∉ name) :
    ((data.extract pos.toNat data.size).toList.takeWhile (· != 0)) = name ∧
      name.length < (data.extract pos.toNat data.size).toList.length := by
  obtain ⟨front, rest, hData, hPos⟩ := h
  have hRest : Holds data pos (name ++ 0 :: rest) := ⟨front, [], by simpa using hData, hPos⟩
  have hSize : data.size = pos.toNat + (name ++ 0 :: rest).length := by
    rw [← Array.length_toList, hData, ← hPos]
    simp
  have hTail : (data.extract pos.toNat data.size).toList = name ++ 0 :: rest := hRest.extract hSize
  have hOther : ∀ b ∈ name, (b != 0) = true := fun b hb => by
    rw [bne_iff_ne]
    rintro rfl
    exact hName hb
  rw [hTail]
  refine ⟨?_, by simp⟩
  rw [takeWhile_append_of_pos hOther]
  simp

theorem string (h : Holds data pos (name ++ [0])) (hName : 0 ∉ name) :
    stringAt data pos = .ok (name, pos + name.length + 1) := by
  have hBounds := h.bounds
  obtain ⟨hTake, hLonger⟩ := h.takeWhile hName
  rw [length_append, length_singleton] at hBounds
  rw [stringAt, if_neg (by omega), if_neg (by omega)]
  simp only [hTake]
  rw [if_neg (by omega)]

/-- An entry of a run stands where the run says that it starts. -/
theorem entry {es : List Bytes} (h : Holds data pos es.flatten) {i : Nat} (hi : i < es.length) :
    Holds data (pos + (es.take i).flatten.length) es[i] := by
  have hSplit : es.flatten = (es.take i).flatten ++ (es[i] ++ (es.drop (i + 1)).flatten) := by
    rw [← flatten_cons, ← drop_eq_getElem_cons hi, ← flatten_append,
      take_append_drop]
  rw [hSplit] at h
  exact h.right.left

/-- A row of a table stands behind the rows before it, which all have its width. -/
theorem row {α : Type} {rows : List α} {encode : α → Bytes} {width : Nat}
    (h : Holds data pos (rows.flatMap encode)) (hWidth : ∀ r, (encode r).length = width)
    {i : Nat} (hi : i < rows.length) : Holds data (pos + width * i) (encode rows[i]) := by
  have hSplit : rows.flatMap encode = (rows.take i).flatMap encode ++
      (encode rows[i] ++ (rows.drop (i + 1)).flatMap encode) := by
    rw [← flatMap_cons, ← drop_eq_getElem_cons hi, ← flatMap_append,
      take_append_drop]
  rw [hSplit] at h
  have hRow := h.right.left
  rwa [length_rows hWidth, length_take, Nat.min_eq_left hi.le, Nat.cast_mul] at hRow

theorem rows {α β : Type} {rows : List α} {encode : α → Bytes} {f : Nat → Reading β}
    {value : α → β}
    (h : Holds data pos (rows.flatMap encode)) (hWidth : ∀ r, (encode r).length = width)
    (hRead : ∀ i (hi : i < rows.length), Holds data (pos + width * i) (encode rows[i]) →
      f i = .ok (value rows[i])) :
    (List.range rows.length).mapM f = .ok (rows.map value) := by
  rw [mapM_eq_ok]
  refine forall₂_of_getElem (by simp) fun i hi _ => ?_
  rw [length_range] at hi
  rw [getElem_range, getElem_map]
  exact hRead i hi (h.row hWidth hi)

end Holds
end Lsl.Image
