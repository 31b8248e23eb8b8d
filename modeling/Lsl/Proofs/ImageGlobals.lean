import Lsl.Proofs.HeapBlocks

/-! The globals of an image and its heap. A global of a text or list type holds the handle of a block,
and the blocks stand in the order of these globals; the walk over the globals and the walk over the
heap meet again what was written. -/
namespace Lsl

open List

variable {done : Bytes} {heap' : Heap}

variable {g : GlobalData} {gs : List GlobalData} {out : Bytes} {heap : Heap}

theorem Value.length_inline {v : Value} (hValue : v.ty.isValue = true)
    (hInline : v.ty.isReference = false) : v.inline.length = v.ty.size := by
  cases v <;> simp_all [Value.ty, Value.inline, Ty.isValue, Ty.isReference, Ty.size, Ty.isKnown]

theorem Ty.size_pos {t : Ty} (h : t.isValue = true) : 0 < t.size := by
  cases t <;> simp_all [isValue, isKnown, size]

/-- The room of a global: the way to its data, the type, the name and the data. -/
def GlobalEntry.room (e : GlobalEntry) : Nat := 4 + 1 + (e.name.length + 1) + e.data.length

/-- A block holds the initial value of a global. -/
structure HeapBlock.Keeps (b : HeapBlock) (g : GlobalData) : Prop where
  ty : b.ty = g.ty
  refs : b.refs = 1
  data : b.data = g.value.stored

/-- A global is read with its name, its type, its offset and its initial value, or the handle of the
block that holds the value. -/
structure GlobalEntry.Shows (heap : List HeapBlock) (e : GlobalEntry) (g : GlobalData) : Prop where
  name : e.name = Text.bytes g.name
  ty : e.ty = g.ty
  offset : e.offset = g.offset
  inline : g.ty.isReference = false → e.data = g.value.inline
  handle : g.ty.isReference = true → ∃ b ∈ heap, e.data = int32 b.handle ∧ b.Keeps g

namespace GlobalData

def block (g : GlobalData) : Bytes :=
  if g.ty.isReference then Heap.block g.ty g.value.stored else []

/-- What stands in the place of a global, when `used` bytes of the heap are taken before it. -/
def content (used : Nat) (g : GlobalData) : Bytes :=
  if g.ty.isReference then int32 (Int32.ofNat (used + 1)) else g.value.inline

def record (used : Nat) (g : GlobalData) : Bytes :=
  intWord (Image.globalHeaderSize g.name) ++
    UInt8.ofNat g.ty.tag :: (Image.nameBytes g.name ++ g.content used)

def records (used : Nat) : List GlobalData → Bytes
  | [] => []
  | g :: gs => g.record used ++ records (used + g.block.length) gs

/-- The globals stand where their offsets say, when the header of the first one starts at `place`. -/
def Placed (place : Nat) : List GlobalData → Prop
  | [] => True
  | g :: gs => g.offset = place + Image.globalHeaderSize g.name ∧
      Placed (place + Image.globalHeaderSize g.name + g.ty.size) gs

def entries (used : Nat) : List GlobalData → List GlobalEntry
  | [] => []
  | g :: gs => ⟨Text.bytes g.name, g.ty, g.offset, g.content used⟩ ::
      entries (used + g.block.length) gs

def blocks (used : Nat) : List GlobalData → List HeapBlock
  | [] => []
  | g :: gs => (if g.ty.isReference then [⟨Int32.ofNat (used + 1), g.ty, 1, g.value.stored⟩] else []) ++
      blocks (used + g.block.length) gs

/-- A global of a value type whose initial value is of that type. -/
structure Typed (g : GlobalData) : Prop where
  isValue : g.ty.isValue = true
  value : g.value.ty = g.ty

theorem Typed.length_content (h : g.Typed) (used : Nat) : (g.content used).length = g.ty.size := by
  unfold content
  split
  · next hRef => 
    rw [length_int32]
    cases hTy : g.ty <;> simp_all [Ty.isReference, Ty.size]
  · next hRef => 
    rw [← h.value] at hRef ⊢
    exact Value.length_inline (h.value ▸ h.isValue) (by simpa using hRef)

theorem Typed.length_record (h : g.Typed) (used : Nat) :
    (g.record used).length = Image.globalHeaderSize g.name + g.ty.size := by
  simp only [record, length_append, length_cons, length_intWord, Image.nameBytes,
    h.length_content, Image.globalHeaderSize, Text.length_bytes, length_nil]
  omega

theorem length_records (hgs : ∀ g ∈ gs, g.Typed) (used : Nat) :
    (records used gs).length = ((entries used gs).map GlobalEntry.room).sum := by
  induction gs generalizing used with
  | nil => rfl
  | cons g gs ih =>
    have hg := hgs g (by simp)
    rw [records, entries, length_append, hg.length_record, map_cons, sum_cons,
      ih fun g' hg' => hgs g' (by simp [hg'])]
    simp only [GlobalEntry.room, Image.globalHeaderSize, hg.length_content, Text.length_bytes]
    omega

theorem length_le_records (gs : List GlobalData) (used : Nat) : gs.length ≤ (records used gs).length := by
  induction gs generalizing used with
  | nil => exact Nat.zero_le _
  | cons g gs ih =>
    have hRest := ih (used + g.block.length)
    simp only [records, record, length_cons, length_append, length_intWord]
    omega

def cells (gs : List GlobalData) : List Heap.Cell :=
  (gs.filter (·.ty.isReference)).map fun g => (g.ty, g.value.stored)

theorem flatMap_block (gs : List GlobalData) : gs.flatMap block = Heap.blockBytes (cells gs) := by
  induction gs with
  | nil => rfl
  | cons g gs ih =>
    rw [flatMap_cons, ih, cells, cells, filter_cons, block]
    cases g.ty.isReference <;> rfl

theorem blocks_eq (gs : List GlobalData) (used : Nat) : blocks used gs = Heap.blocksFrom used (cells gs) := by
  induction gs generalizing used with
  | nil => rfl
  | cons g gs ih =>
    rw [blocks, ih, cells, cells, filter_cons, block]
    cases g.ty.isReference <;> rfl

theorem length_blocks (gs : List GlobalData) (used : Nat) :
    (gs.flatMap block).length = ((blocks used gs).map HeapBlock.room).sum := by
  rw [flatMap_block, blocks_eq, ← Heap.length_blockBytes]

theorem blocks_keep (gs : List GlobalData) (used : Nat) :
    Forall₂ HeapBlock.Keeps (blocks used gs) (gs.filter (·.ty.isReference)) := by
  induction gs generalizing used with
  | nil => exact .nil
  | cons g gs ih =>
    rw [blocks, filter_cons]
    cases g.ty.isReference with
    | false => exact ih _
    | true => exact .cons ⟨rfl, rfl, rfl⟩ (ih _)

/-- Each global is read as it is, and the handle of a text or list is that of its block. -/
theorem entries_show (gs : List GlobalData) (used : Nat) :
    Forall₂ (GlobalEntry.Shows (blocks used gs)) (entries used gs) gs := by
  induction gs generalizing used with
  | nil => exact .nil
  | cons g gs ih =>
    rw [entries, blocks]
    refine .cons ⟨rfl, rfl, rfl, fun hInline => ?_, fun hRef => ?_⟩ ((ih _).imp fun e g' he => ?_)
    · simp [content, hInline]
    · exact ⟨_, by simp only [hRef, if_true]; exact mem_cons_self .., by simp [content, hRef],
        rfl, rfl, rfl⟩
    · refine { he with handle := fun hRef => ?_ }
      obtain ⟨b, hb, hKeeps⟩ := he.handle hRef
      exact ⟨b, mem_append_right _ hb, hKeeps⟩

theorem handles_ascend (gs : List GlobalData) (used : Nat)
    (hRange : used + (gs.flatMap block).length < 2 ^ 31 - 1) :
    ((blocks used gs).map (·.handle.toInt)).Pairwise (· < ·) ∧
      ∀ b ∈ blocks used gs, (used : Int) < b.handle.toInt := by
  rw [flatMap_block] at hRange
  rw [blocks_eq]
  exact Heap.handles_ascend _ _ (by omega)

theorem Typed.initialValue_eq (h : g.Typed) : Image.initialValue g.ty g.value = g.value := by
  have hValue := h.isValue
  rw [← h.value] at hValue ⊢
  cases hv : g.value <;> simp_all [Value.ty, Image.initialValue, Ty.isValue, Image.textOf]

end GlobalData

namespace Image

theorem addGlobal_eq_ok (hg : g.Typed) (h : addGlobal done heap g = .ok (out, heap')) :
    g.offset = done.length + globalHeaderSize g.name ∧
      out = done ++ g.record heap.bytes.length ∧ heap'.bytes = heap.bytes ++ g.block := by
  simp only [addGlobal, hg.initialValue_eq] at h
  by_cases hPlace : g.offset = (done.length + globalHeaderSize g.name : Nat)
  · rw [if_neg (not_not_intro hPlace)] at h
    refine ⟨by simpa using hPlace, ?_⟩
    simp only [GlobalData.record, GlobalData.content, GlobalData.block]
    cases hRef : g.ty.isReference with
    | false =>
      rw [hRef] at h
      cases h
      simp
    | true =>
      rw [hRef, if_pos rfl] at h
      split at h
      · cases h
      · next stored handle hAdd =>
        obtain ⟨hBytes, hHandle⟩ := Heap.add_eq_ok hAdd
        cases h
        rw [hBytes, hHandle, hg.value]
        simp
  · rw [if_pos hPlace] at h
    cases h

/-- The globals are written one after the other, and so are the blocks that they fill. -/
theorem foldlM_addGlobal (hgs : ∀ g ∈ gs, g.Typed)
    (h : gs.foldlM (fun (s : Bytes × Heap) g => addGlobal s.1 s.2 g) (done, heap) = .ok (out, heap')) :
    GlobalData.Placed done.length gs ∧ out = done ++ GlobalData.records heap.bytes.length gs ∧
      heap'.bytes = heap.bytes ++ gs.flatMap GlobalData.block := by
  induction gs generalizing done heap with
  | nil =>
    cases h
    simp [GlobalData.Placed, GlobalData.records]
  | cons g gs ih =>
    rw [foldlM_cons, bind_eq_ok] at h
    obtain ⟨⟨next, heap₁⟩, hFirst, hRest⟩ := h
    obtain ⟨hOffset, hOut, hHeap⟩ := addGlobal_eq_ok (hgs g (by simp)) hFirst
    obtain ⟨hPlaced, hOut', hHeap'⟩ := ih (fun g' hg' => hgs g' (by simp [hg'])) hRest
    have hNext : next.length = done.length + globalHeaderSize g.name + g.ty.size := by
      rw [hOut, length_append, (hgs g (by simp)).length_record, Nat.add_assoc]
    refine ⟨⟨hOffset, hNext ▸ hPlaced⟩, ?_, ?_⟩
    · rw [hOut', hHeap, hOut, length_append, append_assoc]
      rfl
    · rw [hHeap', hHeap, append_assoc, flatMap_cons]

theorem writeGlobals_eq_ok (hgs : ∀ g ∈ gs, g.Typed) (h : writeGlobals gs = .ok (out, heap)) :
    GlobalData.Placed 0 gs ∧ out = GlobalData.records 0 gs ∧
      heap.encode = gs.flatMap GlobalData.block ++ List.replicate Heap.headerSize 0 := by
  obtain ⟨hPlaced, hOut, hHeap⟩ := foldlM_addGlobal hgs h
  exact ⟨hPlaced, hOut, by rw [Heap.encode, hHeap, nil_append]⟩

variable {data : Array UInt8} {start stop : Int}

theorem globalAt_eq {g : GlobalData} {used : Nat} {pos : Int} (hg : g.Typed)
    (hName : 0 ∉ Text.bytes g.name) (hSize : data.size < 2 ^ 31)
    (hOffset : start + g.offset = pos + globalHeaderSize g.name)
    (hHolds : Holds data pos (g.record used)) (hStop : pos + (g.record used).length ≤ stop) :
    globalAt data start stop pos =
      .ok (⟨Text.bytes g.name, g.ty, g.offset, g.content used⟩, pos + (g.record used).length) := by
  have hBounds := hHolds.bounds
  have hRest := hHolds.right.tail
  rw [hg.length_record] at hBounds hStop ⊢
  have hHeader : globalHeaderSize g.name = 4 + 1 + (Text.bytes g.name).length + 1 := by
    rw [globalHeaderSize, Text.length_bytes]
  have hWord : wordAt data pos = .ok (globalHeaderSize g.name : Int) := hHolds.left.number (by omega)
  have hTag : byteAt data (pos + 4) = .ok _ := hHolds.right.head.byte
  have hString : stringAt data (pos + 5) = .ok (Text.bytes g.name, _) :=
    (hRest.left.shift (by rw [length_intWord]; omega)).string hName
  have hContent : slice data (pos + globalHeaderSize g.name) (pos + globalHeaderSize g.name + g.ty.size) =
      .ok (g.content used) :=
    (hRest.right.shift (by simp [nameBytes]; omega)).slice (by rw [hg.length_content])
  have hRoom : g.ty.size ≠ 0 := (Ty.size_pos hg.isValue).ne'
  simp only [globalAt, hWord, hTag, hString, hContent, ok_bind, Ty.ofTag_ofNat]
  rw [if_neg (by omega), if_neg hRoom]
  have hPlace : pos + globalHeaderSize g.name - start = g.offset := by omega
  rw [hPlace]
  push_cast
  rw [add_assoc]
  rfl

/-- The walk over the globals meets those that were written, one after the other, and goes on behind
them. -/
theorem readGlobals_records {gs : List GlobalData} {used place : Nat} {pos : Int} (fuel : Nat)
    (hgs : ∀ g ∈ gs, g.Typed) (hNames : ∀ g ∈ gs, 0 ∉ Text.bytes g.name)
    (hSize : data.size < 2 ^ 31) (hPlaced : GlobalData.Placed place gs) (hPos : pos = start + place)
    (hHolds : Holds data pos (GlobalData.records used gs))
    (hStop : pos + (GlobalData.records used gs).length ≤ stop) :
    readGlobals data start stop (gs.length + fuel) pos =
      (readGlobals data start stop fuel (pos + (GlobalData.records used gs).length)).map
        (GlobalData.entries used gs ++ ·) := by
  induction gs generalizing used place pos with
  | nil =>
    simp only [GlobalData.records, GlobalData.entries, length_nil, Nat.zero_add, Int.natCast_zero,
      add_zero, nil_append]
    cases readGlobals data start stop fuel pos <;> rfl
  | cons g gs ih =>
    have hg := hgs g (by simp)
    have hRoom := hg.length_record used
    have hTySize := Ty.size_pos hg.isValue
    obtain ⟨hOffset, hPlaced⟩ := hPlaced
    rw [GlobalData.records, length_append] at hStop ⊢
    rw [GlobalData.records] at hHolds
    have hFirst := @globalAt_eq data start stop g used pos hg (hNames g (by simp)) hSize (by omega)
      hHolds.left (by omega)
    have hRest := ih (fun g' h' => hgs g' (by simp [h'])) (fun g' h' => hNames g' (by simp [h']))
      hPlaced (by omega) hHolds.right (by omega)
    rw [length_cons, Nat.add_right_comm, readGlobals, if_neg (by omega)]
    simp only [hFirst, hRest, ok_bind, Nat.cast_add, add_assoc]
    cases readGlobals data start stop fuel _ <;> rfl

theorem readGlobals_eq {used place fuel : Nat} {pos : Int} (hgs : ∀ g ∈ gs, g.Typed)
    (hNames : ∀ g ∈ gs, 0 ∉ Text.bytes g.name) (hSize : data.size < 2 ^ 31)
    (hPlaced : GlobalData.Placed place gs) (hPos : pos = start + place)
    (hHolds : Holds data pos (GlobalData.records used gs))
    (hStop : stop = pos + (GlobalData.records used gs).length) (hFuel : gs.length ≤ fuel) :
    readGlobals data start stop fuel pos = .ok (GlobalData.entries used gs) := by
  have hEnd : readGlobals data start stop (fuel - gs.length) stop = .ok [] := by
    unfold readGlobals
    exact if_pos le_rfl
  have hWalk := readGlobals_records (fuel - gs.length) hgs hNames hSize hPlaced hPos hHolds hStop.ge
  rwa [← hStop, hEnd, Nat.add_sub_cancel' hFuel, Except.map, append_nil] at hWalk

theorem readHeap_eq {used fuel : Nat} {pos : Int} (hgs : ∀ g ∈ gs, g.Typed) (hSize : data.size < 2 ^ 31)
    (hPos : pos = start + used)
    (hHolds : Holds data pos (gs.flatMap GlobalData.block ++ List.replicate Heap.headerSize 0))
    (hStop : stop = pos + (gs.flatMap GlobalData.block).length + Heap.headerSize) (hFuel : gs.length < fuel) :
    readHeap data start stop fuel pos = .ok (GlobalData.blocks used gs) := by
  rw [GlobalData.flatMap_block] at hHolds hStop
  have hBounds := hHolds.bounds
  have hCount : (GlobalData.cells gs).length ≤ gs.length := by
    rw [GlobalData.cells, length_map]
    exact length_filter_le ..
  have hTypes : ∀ c ∈ GlobalData.cells gs, c.1 ≠ .void := by
    intro c hc
    obtain ⟨g, hg, rfl⟩ := List.mem_map.mp hc
    exact (Ty.isValue_iff.mp (hgs g (mem_of_mem_filter hg)).isValue).2
  rw [length_append] at hBounds
  rw [GlobalData.blocks_eq]
  exact readHeap_blocks hTypes (by omega) hPos hHolds hStop.ge (by omega)

end Image
end Lsl
