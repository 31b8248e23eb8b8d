import Lsl.Proofs.Expansion
import Lsl.Proofs.ImageSections

/-! The heap of an image. Values are stored in blocks one after the other, and the reader meets the
blocks again up to the empty one that ends them: every block has a type, so none looks like the end.
A text is read back from its block by its handle, and the data of a list tells its elements. -/
namespace Lsl

open List

variable {vs : List Value} {v : Value} {content : Bytes} {h : Heap} {pos : Int}

/-- The data of the block that holds a value: a text and its NUL, or the elements of a list behind
their number, each with the tag of its type. -/
def Value.stored : Value → Bytes
  | .string s | .key s => Text.bytes s ++ [0]
  | .list vs => intWord vs.length ++ vs.flatMap fun v => UInt8.ofNat v.ty.tag :: v.inline
  | .void | .integer _ | .float _ | .vector .. | .rotation .. | .unknown _ => []

/-- The room of a block: its size, its type, its references and its data. -/
def HeapBlock.room (b : HeapBlock) : Nat := Heap.headerSize + b.data.length

namespace Heap

/-- The elements of a list are stored if their types have a place in lists. -/
theorem elements_eq_ok {place : Nat} {es : Bytes} (h : elements place vs = .ok es) :
    (es = vs.flatMap fun v => UInt8.ofNat v.ty.tag :: v.inline) ∧
      ∀ v ∈ vs, v.ty.isValue = true ∧ v.ty ≠ .list := by
  induction vs generalizing place es with
  | nil =>
    cases h
    simp
  | cons v vs ih =>
    rw [elements] at h
    split at h
    · cases h
    · next hElement =>
      obtain ⟨rest, hRest, rfl⟩ := map_eq_ok.mp h
      obtain ⟨rfl, hAll⟩ := ih hRest
      refine ⟨by rw [flatMap_cons], List.forall_mem_cons.mpr ⟨?_, hAll⟩⟩
      simpa [Ty.isValue_iff, not_or, and_comm, and_left_comm] using hElement

theorem data_eq_ok (h : data v = .ok content) : content = v.stored := by
  cases v with
  | string s | key s =>
    cases h
    rfl
  | list vs =>
    obtain ⟨es, hElements, rfl⟩ := map_eq_ok.mp h
    rw [(elements_eq_ok hElements).1, Value.stored]
  | void | integer | float | vector | rotation | unknown => cases h

theorem ty_ne_void_of_data (h : data v = .ok content) : v.ty ≠ .void := by
  cases v with
  | void => cases h
  | _ => simp [Value.ty]

theorem add_eq_ok {h' : Heap} {handle : Int32} (hAdd : h.add v = .ok (h', handle)) :
    h'.bytes = h.bytes ++ block v.ty v.stored ∧ handle = Int32.ofNat (h.bytes.length + 1) := by
  obtain ⟨content, hData, hSame⟩ := map_eq_ok.mp hAdd
  cases hSame
  rw [data_eq_ok hData]
  exact ⟨rfl, rfl⟩

theorem length_block (t : Ty) (content : Bytes) : (block t content).length = headerSize + content.length := by
  simp [block, headerSize]
  omega

/-- What a block holds: a type and the data of a value of that type. -/
abbrev Cell := Ty × Bytes

def blockBytes (cs : List Cell) : Bytes := cs.flatMap fun c => block c.1 c.2

def blocksFrom (used : Nat) : List Cell → List HeapBlock
  | [] => []
  | c :: cs => ⟨Int32.ofNat (used + 1), c.1, 1, c.2⟩ :: blocksFrom (used + (block c.1 c.2).length) cs

theorem blockBytes_cons (c : Cell) (cs : List Cell) :
    blockBytes (c :: cs) = block c.1 c.2 ++ blockBytes cs := flatMap_cons ..

theorem length_blockBytes (cs : List Cell) (used : Nat) :
    (blockBytes cs).length = ((blocksFrom used cs).map HeapBlock.room).sum := by
  induction cs generalizing used with
  | nil => rfl
  | cons c cs ih =>
    rw [blockBytes_cons, length_append, ih (used + (block c.1 c.2).length), blocksFrom,
      map_cons, sum_cons, HeapBlock.room, length_block]

theorem toInt_handle {used : Nat} (h : used < 2 ^ 31 - 1) : (Int32.ofNat (used + 1)).toInt = used + 1 := by
  rw [← Int32.ofInt_eq_ofNat, toInt_ofInt (by omega) (by omega)]
  push_cast
  rfl

theorem length_le_blockBytes (cs : List Cell) : cs.length ≤ (blockBytes cs).length := by
  induction cs with
  | nil => exact Nat.zero_le _
  | cons c cs ih =>
    rw [blockBytes_cons, length_append, length_cons, length_block, headerSize]
    omega

/-- Handles tell blocks apart: a later block has a larger one. -/
theorem handles_ascend (cs : List Cell) (used : Nat) (hRange : used + (blockBytes cs).length < 2 ^ 31) :
    ((blocksFrom used cs).map (·.handle.toInt)).Pairwise (· < ·) ∧
      ∀ b ∈ blocksFrom used cs, (used : Int) < b.handle.toInt := by
  induction cs generalizing used with
  | nil => exact ⟨.nil, by simp [blocksFrom]⟩
  | cons c cs ih =>
    have hLength := length_block c.1 c.2
    rw [blockBytes_cons, length_append] at hRange
    rw [headerSize] at hLength
    obtain ⟨hRest, hAbove⟩ := ih (used + (block c.1 c.2).length) (by omega)
    have hFirst := @toInt_handle used (by omega)
    rw [blocksFrom, map_cons, pairwise_cons, forall_mem_cons, hFirst]
    refine ⟨⟨fun n hn => ?_, hRest⟩, by omega, fun b hb => ?_⟩
    · obtain ⟨b, hb, rfl⟩ := List.mem_map.mp hn
      have := hAbove b hb
      omega
    · have := hAbove b hb
      omega

end Heap

namespace Image

variable {data : Array UInt8} {start stop : Int}

/-- An empty block ends the heap. -/
theorem readHeap_end (fuel : Nat) (hHolds : Holds data pos (List.replicate Heap.headerSize 0))
    (hStop : pos + Heap.headerSize ≤ stop) : readHeap data start stop (fuel + 1) pos = .ok [] := by
  have hParts : List.replicate Heap.headerSize (0 : UInt8) = intWord 0 ++ [0, 0, 0] := by decide
  rw [Heap.headerSize] at hStop
  rw [hParts] at hHolds
  have hWord : wordAt data pos = .ok (0 : Int) := hHolds.left.word
  have hTag : byteAt data (pos + 4) = .ok 0 := hHolds.right.head.byte
  have hHigh : byteAt data (pos + 5) = .ok 0 := (hHolds.right.tail.head.shift (by simp; omega)).byte
  have hLow : byteAt data (pos + 6) = .ok 0 :=
    (hHolds.right.tail.tail.head.shift (by simp; omega)).byte
  rw [readHeap, if_neg (by omega)]
  simp only [hWord, hTag, hHigh, hLow, ok_bind]
  rw [if_neg (by omega)]
  rfl

/-- A block that has a type is read with its data, and the walk goes on behind it. -/
theorem readHeap_block {t : Ty} (fuel : Nat) (ht : t ≠ .void) (hSize : content.length < 2 ^ 31)
    (hHolds : Holds data pos (Heap.block t content)) (hStop : pos + (Heap.block t content).length ≤ stop) :
    readHeap data start stop (fuel + 1) pos =
      (readHeap data start stop fuel (pos + (Heap.block t content).length)).map
        (⟨Int32.ofInt (pos - start + 1), t, 1, content⟩ :: ·) := by
  have hBounds := hHolds.bounds
  rw [Heap.length_block, Heap.headerSize] at hBounds hStop ⊢
  have hParts : Heap.block t content = intWord content.length ++
      UInt8.ofNat t.tag :: (0 :: 1 :: content) := by simp [Heap.block, bigEndian_succ, bigEndian_zero]
  rw [hParts] at hHolds
  have hWord : wordAt data pos = .ok (content.length : Int) := hHolds.left.number hSize
  have hTag : byteAt data (pos + 4) = .ok _ := hHolds.right.head.byte
  have hHigh : byteAt data (pos + 5) = .ok 0 := (hHolds.right.tail.head.shift (by simp; omega)).byte
  have hLow : byteAt data (pos + 6) = .ok 1 :=
    (hHolds.right.tail.tail.head.shift (by simp; omega)).byte
  have hContent : slice data (pos + 7) (pos + 7 + content.length) = .ok content :=
    (hHolds.right.tail.tail.tail.shift (by simp; omega)).slice rfl
  have hNext : pos + ((7 + content.length : Nat) : Int) = pos + 7 + content.length := by omega
  rw [readHeap, if_neg (by omega), hNext]
  simp only [hWord, hTag, hHigh, hLow, hContent, ok_bind, Ty.ofTag_ofNat]
  rw [if_neg (by omega), if_neg (fun h => ht h.2)]
  cases readHeap data start stop fuel (pos + 7 + content.length) <;> rfl

/-- The walk over the heap meets the blocks that were written and stops at the empty one. -/
theorem readHeap_blocks {cs : List Heap.Cell} {used fuel : Nat} (hTypes : ∀ c ∈ cs, c.1 ≠ .void)
    (hSize : (Heap.blockBytes cs).length < 2 ^ 31) (hPos : pos = start + used)
    (hHolds : Holds data pos (Heap.blockBytes cs ++ List.replicate Heap.headerSize 0))
    (hStop : pos + (Heap.blockBytes cs).length + Heap.headerSize ≤ stop) (hFuel : cs.length < fuel) :
    readHeap data start stop fuel pos = .ok (Heap.blocksFrom used cs) := by
  induction cs generalizing used fuel pos with
  | nil =>
    obtain ⟨fuel, rfl⟩ : ∃ n, fuel = n + 1 := ⟨fuel - 1, by omega⟩
    exact readHeap_end fuel hHolds (by simpa [Heap.blockBytes] using hStop)
  | cons c cs ih =>
    rw [length_cons] at hFuel
    rw [Heap.blockBytes_cons, append_assoc] at hHolds
    rw [Heap.blockBytes_cons, length_append] at hSize hStop
    rw [forall_mem_cons] at hTypes
    have hRoom := Heap.length_block c.1 c.2
    have hHandle : Int32.ofInt (pos - start + 1) = Int32.ofNat (used + 1) := by
      have hNumber : pos - start + 1 = ((used + 1 : Nat) : Int) := by omega
      rw [hNumber, Int32.ofInt_eq_ofNat]
    obtain ⟨fuel, rfl⟩ : ∃ n, fuel = n + 1 := ⟨fuel - 1, by omega⟩
    rw [readHeap_block fuel hTypes.1 (by omega) hHolds.left (by omega),
      @ih _ (used + (Heap.block c.1 c.2).length) fuel hTypes.2 (by omega) (by omega)
        hHolds.right (by omega) (by omega), hHandle]
    rfl

end Image

def Value.cell (v : Value) : Heap.Cell := (v.ty, v.stored)

namespace Heap

/-- Stores values one after the other, with the handle of each or why it was refused. A refused value
leaves the heap as it is. -/
def addEach (h : Heap) : List Value → Heap × List (Except HeapError Int32)
  | [] => (h, [])
  | v :: vs =>
    match h.add v with
    | .error e => ((addEach h vs).1, .error e :: (addEach h vs).2)
    | .ok (h', handle) => ((addEach h' vs).1, .ok handle :: (addEach h' vs).2)

def kept (h : Heap) (vs : List Value) : List (Value × Int32) :=
  (vs.zip (addEach h vs).2).filterMap fun (v, r) => r.toOption.map (v, ·)

/-- A block holds a value under a handle, with one reference. -/
structure Holds (kept : Value × Int32) (b : HeapBlock) : Prop where
  handle : b.handle = kept.2
  ty : b.ty = kept.1.ty
  refs : b.refs = 1
  data : data kept.1 = .ok b.data

theorem kept_error {e : HeapError} (hAdd : h.add v = .error e) : kept h (v :: vs) = kept h vs := by
  simp [kept, addEach, hAdd, Except.toOption]

theorem kept_ok {h' : Heap} {handle : Int32} (hAdd : h.add v = .ok (h', handle)) :
    kept h (v :: vs) = (v, handle) :: kept h' vs := by
  simp [kept, addEach, hAdd, Except.toOption]

/-- Values fill the blocks of those that are not refused. -/
theorem addEach_blocks (vs : List Value) (h : Heap) :
    (addEach h vs).1.bytes = h.bytes ++ blockBytes ((kept h vs).map (·.1.cell)) ∧
      Forall₂ Holds (kept h vs) (blocksFrom h.bytes.length ((kept h vs).map (·.1.cell))) := by
  induction vs generalizing h with
  | nil => exact ⟨by simp [addEach, kept, blockBytes], .nil⟩
  | cons v vs ih =>
    cases hAdd : h.add v with
    | error e =>
      rw [kept_error hAdd]
      simpa only [addEach, hAdd] using ih h
    | ok r =>
      obtain ⟨h', handle⟩ := r
      obtain ⟨hBytes, hHandle⟩ := add_eq_ok hAdd
      obtain ⟨hRest, hBlocks⟩ := ih h'
      obtain ⟨content, hData, _⟩ := map_eq_ok.mp hAdd
      rw [hBytes, length_append] at hBlocks
      rw [kept_ok hAdd, map_cons, blockBytes_cons, blocksFrom]
      have hStored : data v = .ok v.stored := data_eq_ok hData ▸ hData
      refine ⟨?_, .cons ⟨hHandle.symm, rfl, rfl, hStored⟩ hBlocks⟩
      simp only [addEach, hAdd, hRest, hBytes, append_assoc, Value.cell]

/-- The refused values might as well not have been there. -/
theorem addEach_kept (vs : List Value) (h : Heap) :
    addEach h ((kept h vs).map Prod.fst) = ((addEach h vs).1, (kept h vs).map fun k => .ok k.2) := by
  induction vs generalizing h with
  | nil => rfl
  | cons v vs ih =>
    cases hAdd : h.add v with
    | error e =>
      rw [kept_error hAdd, ih]
      simp only [addEach, hAdd]
    | ok r =>
      rw [kept_ok hAdd]
      simp only [map_cons, addEach, hAdd, ih]

end Heap

/-- The operand that is written like a value in place. -/
def Value.operand : Value → Operand
  | .integer n => .int n
  | .float x => .float x
  | .string s | .key s => .string (Text.bytes s)
  | .vector x y z => .floats [x, y, z]
  | .rotation x y z s => .floats [x, y, z, s]
  | .void | .list _ | .unknown _ => .none

def Ty.inlineKind : Ty → OperandKind
  | integer => .int
  | float => .float
  | string | key => .string
  | vector => .vector
  | rotation => .rotation
  | void | list | unknown _ => .none

namespace Value

theorem inline_eq (v : Value) : v.inline = v.operand.encode := by cases v <;> rfl

theorem operand_fits (h : ∀ s ∈ v.strings, 0 ∉ Text.bytes s) : v.operand.Fits v.ty.inlineKind := by
  cases v with
  | string s | key s => exact .string (h s mem_cons_self)
  | _ => constructor

/-- A value of a type with a place in lists is known by its operand. -/
theorem operand_inj {w : Value} (hTy : v.ty = w.ty) (hValue : v.ty.isValue = true) (hList : v.ty ≠ .list)
    (h : v.operand = w.operand) : v = w := by
  cases v <;> cases w <;>
    simp_all [ty, operand, Text.bytes_inj, Ty.isValue, Ty.isKnown]

/-- Elements of lists are told from what follows them. -/
theorem element_delimited {w : Value} {r s : Bytes} (hValue : v.ty.isValue = true) (hList : v.ty ≠ .list)
    (hv : ∀ s ∈ v.strings, 0 ∉ Text.bytes s) (hw : ∀ s ∈ w.strings, 0 ∉ Text.bytes s)
    (h : UInt8.ofNat v.ty.tag :: v.inline ++ r = UInt8.ofNat w.ty.tag :: w.inline ++ s) : v = w ∧
      r = s := by
  obtain ⟨hTag, hRest⟩ := List.cons.inj h
  have hTy : v.ty = w.ty := by rw [← v.ty.ofTag_ofNat, hTag, w.ty.ofTag_ofNat]
  have hRead := Operand.decode?_encode (operand_fits hv) r
  rw [← inline_eq, show v.inline ++ r = w.inline ++ s from hRest, hTy, inline_eq,
    Operand.decode?_encode (operand_fits hw)] at hRead
  obtain ⟨hOperand, hEnd⟩ := Prod.mk.inj (Option.some.inj hRead)
  exact ⟨operand_inj hTy hValue hList hOperand.symm, hEnd.symm⟩

end Value

namespace Heap

/-- Elements whose texts hold no NUL are known by their bytes. -/
theorem elements_inj {us ws : List Value} (hTypes : ∀ u ∈ us, u.ty.isValue = true ∧ u.ty ≠ .list)
    (hus : ∀ s ∈ Value.stringsAll us, 0 ∉ Text.bytes s) (hws : ∀ s ∈ Value.stringsAll ws,
      0 ∉ Text.bytes s)
    (h : us.flatMap (fun v => UInt8.ofNat v.ty.tag :: v.inline) =
      ws.flatMap fun v => UInt8.ofNat v.ty.tag :: v.inline) : us = ws := by
  induction us generalizing ws with
  | nil =>
    cases ws with
    | nil => rfl
    | cons w ws => simp at h
  | cons u us ih =>
    cases ws with
    | nil => simp at h
    | cons w ws =>
      rw [forall_mem_cons] at hTypes
      simp only [Value.stringsAll, mem_append] at hus hws
      obtain ⟨rfl, hRest⟩ := Value.element_delimited hTypes.1.1 hTypes.1.2
        (fun s hs => hus s (.inl hs)) (fun s hs => hws s (.inl hs)) h
      rw [ih hTypes.2 (fun s hs => hus s (.inr hs)) (fun s hs => hws s (.inr hs)) hRest]

/-- A block is found by its handle if no other block has it. -/
theorem heapText?_eq {img : Image} {b : HeapBlock} {text : Bytes} (hb : b ∈ img.heap)
    (hHandles : (img.heap.map (·.handle.toInt)).Pairwise (· < ·)) (hTy : b.ty = .string ∨ b.ty = .key)
    (hData : b.data = text ++ [0]) : img.heapText? b.handle = some text := by
  obtain ⟨c, hFind⟩ : ∃ c, img.heap.find? (fun c =>
      c.handle == b.handle && (c.ty == .string || c.ty == .key) && !c.data.isEmpty) = some c :=
    Option.isSome_iff_exists.mp (List.find?_isSome.mpr ⟨b, hb, by simpa [hData] using hTy⟩)
  have hSame : c.handle = b.handle := by
    have hFound := List.find?_some hFind
    simp only [Bool.and_eq_true, beq_iff_eq] at hFound
    exact hFound.1.1
  have hOnly : c = b := inj_on_of_nodup_map (hHandles.imp ne_of_lt)
    (mem_of_find?_eq_some hFind) hb (congrArg Int32.toInt hSame)
  rw [Image.heapText?, hFind, Option.map_some, hOnly, hData, dropLast_concat]

/-- A heap into which values were stored is read as their blocks. Each of them has the handle that was
returned, handles ascend from one, and texts are found by theirs. Refused values have left no trace, and
the data of lists without NULs tells their elements. -/
structure Faithful (vs : List Value) : Prop where
  refused : addEach {} ((kept {} vs).map Prod.fst) =
    ((addEach {} vs).1, (kept {} vs).map fun k => .ok k.2)
  first : ∀ k ∈ (kept {} vs).head?, k.2.toInt = 1
  ascend : ((kept {} vs).map (·.2.toInt)).Pairwise (· < ·)
  read : ∀ (data : Array UInt8) (start stop : Int), Image.Holds data start (addEach {} vs).1.encode →
    start + (addEach {} vs).1.encode.length ≤ stop → ∃ blocks,
      Image.readHeap data start stop (stop.toNat + 1) start = .ok blocks ∧
        Forall₂ Holds (kept {} vs) blocks ∧
        ∀ img : Image, img.heap = blocks → ∀ k ∈ kept {} vs, ∀ s, k.1 = .string s ∨
          k.1 = .key s →
          img.heapText? k.2 = some (Text.bytes s)
  lists : ∀ us ws content, data (.list us) = .ok content → data (.list ws) = .ok content →
    (∀ s ∈ (Value.list us).strings ++ (Value.list ws).strings, 0 ∉ Text.bytes s) → us = ws

theorem addEach_faithful {vs : List Value} (hSize : (addEach {} vs).1.bytes.length < 2 ^ 31) :
    Faithful vs := by
  obtain ⟨hBytes, hBlocks⟩ := addEach_blocks vs {}
  rw [nil_append] at hBytes
  rw [show ({} : Heap).bytes.length = 0 from rfl] at hBlocks
  rw [hBytes] at hSize
  obtain ⟨hAscend, -⟩ := handles_ascend ((kept {} vs).map (·.1.cell)) 0 (by omega)
  refine ⟨addEach_kept vs {}, fun k hk => ?_, ?_, fun data start stop hHolds hStop => ?_,
    fun us ws content hu hw hText => ?_⟩
  · obtain ⟨rest, hKept⟩ := List.head?_eq_some_iff.mp hk
    rw [hKept] at hBlocks
    cases hBlocks with
    | cons hFirst _ => rw [← hFirst.handle]; rfl
  · have hHandles := map_eq_of_forall₂ (f := fun k => k.2.toInt) (g := (·.handle.toInt)) hBlocks
      fun k b hk => by rw [hk.handle]
    rwa [hHandles] at hAscend
  · rw [encode, hBytes] at hHolds hStop
    have hBounds := hHolds.bounds
    have hCount := length_le_blockBytes ((kept {} vs).map (·.1.cell))
    have hTypes : ∀ c ∈ (kept {} vs).map (·.1.cell), c.1 ≠ .void := by
      intro c hc
      obtain ⟨k, hk, rfl⟩ := List.mem_map.mp hc
      obtain ⟨b, _, hHolds⟩ := exists_of_mem_left hBlocks hk
      exact ty_ne_void_of_data hHolds.data
    rw [length_append, length_replicate] at hStop hBounds
    refine ⟨_, Image.readHeap_blocks hTypes hSize (by simp) hHolds (by omega) (by omega), hBlocks, ?_⟩
    rintro img hImg k hk s hs
    obtain ⟨b, hb, hHolds⟩ := exists_of_mem_left hBlocks hk
    have hStored := data_eq_ok hHolds.data
    rw [← hHolds.handle]
    refine heapText?_eq (hImg ▸ hb) (hImg ▸ hAscend) ?_ ?_
    · rw [hHolds.ty]
      exact hs.imp (fun h => by rw [h]; rfl) fun h => by rw [h]; rfl
    · rcases hs with hs | hs <;> rw [hStored, hs] <;> rfl
  · obtain ⟨es, hElements, rfl⟩ := map_eq_ok.mp hu
    obtain ⟨fs, hOther, hSame⟩ := map_eq_ok.mp hw
    obtain ⟨-, hBytes⟩ := append_inj hSame (by simp)
    obtain ⟨rfl, hTypes⟩ := elements_eq_ok hElements
    obtain ⟨rfl, -⟩ := elements_eq_ok hOther
    exact elements_inj hTypes (fun s hs => hText s (mem_append_left _ hs))
      (fun s hs => hText s (mem_append_right _ hs)) hBytes.symm

/-- A text with a NUL, a list within a list, which is refused, a number, which is refused, and a list. -/
theorem addEach_faithful_mixed :
    (addEach {} [.string "a\u0000b", .list [.list []], .integer 1,
      .list [.key "", .vector .zero .one .zero]]).1.bytes.length < 2 ^ 31 ∧
    Faithful [.string "a\u0000b", .list [.list []], .integer 1,
      .list [.key "", .vector .zero .one .zero]] := by
  have hSize : (addEach {} [.string "a\u0000b", .list [.list []], .integer 1,
      .list [.key "", .vector .zero .one .zero]]).1.bytes.length < 2 ^ 31 := by decide +kernel
  exact ⟨hSize, addEach_faithful hSize⟩

end Heap
end Lsl
