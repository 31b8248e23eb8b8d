import Lsl.Proofs.ImageGlobals

/-! Images and their reader. An image that was made of a program fills its memory, is accepted by the
reader, and shows the program: its registers lead to the sections, which follow each other without
gaps, and the entries that are read are those of the program's globals, functions, states and of the
values on its heap. -/
namespace Lsl

open List

variable {r : Registers} {p : Program} {s : Sections} {memory : Int} {bytes : Bytes}

/-- A program whose parts an image can tell apart: names end at their NUL, globals and parameters have
types of values, frames have lengths of 31 bits, and events have bits of their own. -/
structure Program.Storable (p : Program) : Prop where
  globalNames : ∀ g ∈ p.globals, 0 ∉ Text.bytes g.name
  globals : ∀ g ∈ p.globals, g.Typed
  functionNames : ∀ f ∈ p.functions, 0 ∉ Text.bytes f.name
  params : ∀ f ∈ p.functions, ∀ t ∈ f.body.paramTypes, t.isValue = true
  stateNames : ∀ s ∈ p.states, 0 ∉ Text.bytes s.name
  frames : ∀ s ∈ p.states, ∀ h ∈ s.events, h.body.localBytes < 2 ^ 31
  events : ∀ s ∈ p.states, ∀ h ∈ s.events, h.kind.code < 64
  ascending : ∀ s ∈ p.states, (s.events.map (·.kind.code)).Pairwise (· < ·)

/-- The registers of a fresh image lead to sections that follow each other, to the end of the memory
and to the events of the first state. -/
structure Image.Fresh (img : Image) (p : Program) (memory : Int) : Prop where
  version : img.registers.vn = 0x0200
  globals : img.registers.gvr.toInt = 100
  functions : img.registers.gfr.toInt =
    img.registers.gvr.toInt + (img.globals.map GlobalEntry.room).sum
  states : img.registers.sr.toInt = img.registers.gfr.toInt +
    (4 + 4 * img.functions.length + (img.functions.map FunctionEntry.room).sum : Nat)
  heap : img.registers.hr.toInt = img.registers.sr.toInt +
    (4 + 12 * img.states.length + (img.states.map StateEntry.room).sum : Nat)
  heapEnd : img.registers.hp.toInt = img.registers.hr.toInt +
    ((img.heap.map HeapBlock.room).sum + Heap.headerSize : Nat)
  inside : img.registers.hp.toInt ≤ memory
  base : img.registers.bp.toInt = memory - 1
  stack : img.registers.sp.toInt = memory
  memory : img.registers.tm.toInt = memory
  events : img.registers.ner = (p.states.head?.map StateCode.eventMask).getD 0
  eventsLow : img.registers.er = img.registers.ner.toUInt32.toInt32
  idle : img.registers.ip = 0 ∧ img.registers.cs = 0 ∧ img.registers.ns = 0 ∧
    img.registers.ce = 0 ∧ img.registers.ie = 0 ∧ img.registers.fr = 0 ∧ img.registers.slr = 0 ∧
    img.registers.pr = 0 ∧ img.registers.esr = 0 ∧ img.registers.nce = 0 ∧ img.registers.nie = 0

/-- An image shows a program: entry by entry its globals, functions and states, and on the heap one
block for each global of a text or list type, in the order of these globals. -/
structure Image.Shows (img : Image) (p : Program) : Prop where
  globals : Forall₂ (GlobalEntry.Shows img.heap) img.globals p.globals
  functions : Forall₂ FunctionEntry.Shows img.functions p.functions
  states : Forall₂ StateEntry.Shows img.states p.states
  heap : Forall₂ HeapBlock.Keeps img.heap (p.globals.filter (·.ty.isReference))
  handles : (img.heap.map (·.handle.toInt)).Pairwise (· < ·)

namespace Image

variable {data : Array UInt8}

theorem readRegisters_eq (h : Holds data 0 r.encode) : readRegisters data = .ok r := by
  have hWords : Forall₂ (fun (o : Nat) w =>
      (do return Int32.ofInt (← wordAt data o) : Reading Int32) = .ok w)
      ((List.range 19).map (4 * ·)) r.words :=
    forall₂_of_getElem rfl fun i _ hi => by
      rw [getElem_map, getElem_range, ((h.left.row length_int32 hi).shift (by simp)).word,
        ok_bind, Int32.ofInt_toInt]
      rfl
  have hMasks : Forall₂ (fun (o : Nat) m => longAt data o = .ok m)
      ((List.range 3).map (76 + 8 * ·)) r.masks :=
    forall₂_of_getElem rfl fun i _ hi =>
      ((h.right.row length_word64 hi).shift (by
        rw [length_rows length_int32]
        simp [Registers.words])).long
  change Forall₂ _ [0, 4, 8, 12, 16, 20, 24, 28, 32, 36, 40, 44, 48, 52, 56, 60, 64, 68, 72]
    [_, _, _, _, _, _, _, _, _, _, _, _, _, _, _, _, _, _, _] at hWords
  change Forall₂ _ [76, 84, 92] [_, _, _] at hMasks
  simp only [forall₂_cons, Nat.cast_ofNat] at hWords hMasks
  simp only [readRegisters, Nat.cast_ofNat, hWords, hMasks, ok_bind]
  rfl

@[simp] theorem length_registers (r : Registers) : r.encode.length = Registers.size := by
  rw [Registers.encode, length_append, length_rows length_int32, length_rows length_word64]
  rfl

theorem writeSections_eq_ok (h : writeSections p = .ok s) :
    ∃ heap, writeGlobals p.globals = .ok (s.globals, heap) ∧ writeFunctions p.functions = .ok
      s.functions ∧
      writeStates p.states = .ok s.states ∧ s.heap = heap.encode := by
  simp only [writeSections, bind_eq_ok, pure_eq_ok] at h
  obtain ⟨⟨globals, heap⟩, hGlobals, functions, hFunctions, states, hStates, rfl⟩ := h
  exact ⟨heap, hGlobals, hFunctions, hStates, rfl⟩

theorem assemble_eq_ok (hMemory : 0 < memory) (h : assemble p memory = .ok bytes) :
    ∃ s, writeSections p = .ok s ∧ (s.used : Int) ≤ memory ∧
      bytes = (initialRegisters p s memory).encode ++ s.bytes ++
        List.replicate (memory.toNat - s.used) 0 := by
  have hBudget : budget memory = memory := if_neg (by omega)
  simp only [assemble, hBudget, bind_eq_ok] at h
  obtain ⟨s, hSections, h⟩ := h
  split at h
  · cases h
  · next hFits =>
    cases h
    exact ⟨s, hSections, by omega, rfl⟩

theorem Sections.holds {s : Sections} {r : Registers} {rest : Bytes}
    (hData : data.toList = r.encode ++ s.bytes ++ rest) :
    Holds data 0 r.encode ∧ Holds data Registers.size s.globals ∧ Holds data s.gfr s.functions ∧
      Holds data s.sr s.states ∧ Holds data s.hr s.heap := by
  have hAll : Holds data 0 (r.encode ++ (s.globals ++ (s.functions ++ (s.states ++ s.heap)))) :=
    ⟨[], rest, by simpa [Sections.bytes] using hData, rfl⟩
  have hTail := hAll.right
  rw [length_registers] at hTail
  exact ⟨hAll.left, hTail.left.shift (by simp), hTail.right.left.shift (by simp [Sections.gfr]),
    hTail.right.right.left.shift (by simp [Sections.gfr, Sections.sr]),
    hTail.right.right.right.shift (by simp [Sections.gfr, Sections.sr, Sections.hr])⟩

theorem toInt_ofNat {n : Nat} (h : n < 2 ^ 31) : (Int32.ofNat n).toInt = n := by
  rw [← Int32.ofInt_eq_ofNat, toInt_ofInt (by omega) (by omega)]

theorem Sections.used_eq (s : Sections) : s.used = s.hr + s.heap.length ∧ s.hr = s.sr + s.states.length ∧
    s.sr = s.gfr + s.functions.length ∧ s.gfr = Registers.size + s.globals.length :=
  ⟨rfl, rfl, rfl, rfl⟩

theorem length_image {s : Sections} {memory : Nat} (r : Registers) (hUsed : s.used ≤ memory) :
    (r.encode ++ s.bytes ++ List.replicate (memory - s.used) 0).length = memory := by
  obtain ⟨hUsedEq, hHr, hSr, hGfr⟩ := s.used_eq
  simp only [length_append, length_registers, length_replicate, Sections.bytes]
  omega

/-- The registers lead to the sections. -/
theorem initialRegisters_toInt {p : Program} {s : Sections} {memory : Int} (hUsed : s.used < 2 ^ 31) :
    (initialRegisters p s memory).gvr.toInt = Registers.size ∧
      (initialRegisters p s memory).gfr.toInt = s.gfr ∧
      (initialRegisters p s memory).sr.toInt = s.sr ∧
      (initialRegisters p s memory).hr.toInt = s.hr ∧
      (initialRegisters p s memory).hp.toInt = s.used := by
  obtain ⟨hUsedEq, hHr, hSr, hGfr⟩ := s.used_eq
  exact ⟨rfl, toInt_ofNat (by omega), toInt_ofNat (by omega), toInt_ofNat (by omega),
    toInt_ofNat hUsed⟩

theorem fresh_of_initialRegisters {img : Image} (hUsed : (s.used : Int) ≤ memory) (hRange : memory < 2 ^ 31)
    (hRegisters : img.registers = initialRegisters p s memory)
    (hGlobals : s.globals.length = (img.globals.map GlobalEntry.room).sum)
    (hFunctions : s.functions.length = 4 + 4 * img.functions.length +
      (img.functions.map FunctionEntry.room).sum)
    (hStates : s.states.length = 4 + 12 * img.states.length + (img.states.map StateEntry.room).sum)
    (hHeap : s.heap.length = (img.heap.map HeapBlock.room).sum + Heap.headerSize) :
    img.Fresh p memory := by
  obtain ⟨hUsedEq, hHrEq, hSrEq, hGfrEq⟩ := s.used_eq
  obtain ⟨hGvr, hGfr, hSr, hHr, hHp⟩ := @initialRegisters_toInt p s memory (by omega)
  rw [← hRegisters] at hGvr hGfr hSr hHr hHp
  refine
    { version := ?_, globals := hGvr, functions := ?_, states := ?_, heap := ?_, heapEnd := ?_,
      inside := ?_, base := ?_, stack := ?_, memory := ?_, events := ?_, eventsLow := ?_, idle := ?_ }
  · rw [hRegisters]
    rfl
  · omega
  · omega
  · omega
  · omega
  · omega
  · rw [hRegisters]
    exact toInt_ofInt (by omega) (by omega)
  · rw [hRegisters]
    exact toInt_ofInt (by omega) (by omega)
  · rw [hRegisters]
    exact toInt_ofInt (by omega) (by omega)
  · rw [hRegisters]
    rfl
  · rw [hRegisters]
    rfl
  · rw [hRegisters]
    exact ⟨rfl, rfl, rfl, rfl, rfl, rfl, rfl, rfl, rfl, rfl, rfl⟩

/-- The globals and the heap of an image are read from where the registers lead. -/
theorem readValues_eq {gs : List GlobalData} {out : Bytes} {heap : Heap} {gfr hr hp : Nat}
    (hgs : ∀ g ∈ gs, g.Typed) (hNames : ∀ g ∈ gs, 0 ∉ Text.bytes g.name)
    (hWrite : writeGlobals gs = .ok (out, heap)) (hSize : data.size < 2 ^ 31)
    (hGlobals : Holds data Registers.size out) (hHeap : Holds data hr heap.encode)
    (hFunctions : gfr = Registers.size + out.length) (hEnd : hp = hr + heap.encode.length)
    (hOrder : gfr ≤ hp) :
    readGlobals data Registers.size gfr (gfr + 1) Registers.size = .ok (GlobalData.entries 0 gs) ∧
      readHeap data hr hp (hp + 1) hr = .ok (GlobalData.blocks 0 gs) := by
  obtain ⟨hPlaced, rfl, hEncode⟩ := writeGlobals_eq_ok hgs hWrite
  have hCount := GlobalData.length_le_records gs 0
  rw [hEncode] at hHeap hEnd
  rw [length_append, length_replicate] at hEnd
  constructor
  · exact readGlobals_eq hgs hNames hSize hPlaced (by simp) hGlobals (by simp [hFunctions]) (by omega)
  · exact readHeap_eq hgs hSize (by simp) hHeap (by omega) (by omega)

/-- An image is read by reading its registers and then the sections they lead to. -/
theorem read_eq {gfr sr hr hp : Nat} {globals : List GlobalEntry} {functions : List FunctionEntry}
    {states : List StateEntry} {heap : List HeapBlock} (hRegisters : readRegisters bytes.toArray = .ok r)
    (hVersion : r.vn = Registers.version) (hGvr : r.gvr.toInt = Registers.size) (hGfr : r.gfr.toInt = gfr)
    (hSr : r.sr.toInt = sr) (hHr : r.hr.toInt = hr) (hHp : r.hp.toInt = hp) (hFirst : Registers.size ≤ gfr)
    (hSecond : gfr ≤ sr) (hThird : sr ≤ hr) (hFourth : hr ≤ hp) (hEnd : hp ≤ bytes.length)
    (hGlobals : readGlobals bytes.toArray Registers.size gfr (gfr + 1) Registers.size = .ok globals)
    (hFunctions : readFunctions bytes.toArray gfr sr = .ok functions)
    (hStates : readStates bytes.toArray sr hr = .ok states)
    (hHeap : readHeap bytes.toArray hr hp (hp + 1) hr = .ok heap) :
    read bytes = .ok ⟨r, globals, functions, states, heap⟩ := by
  have hSize : bytes.toArray.size = bytes.length := size_toArray
  have hOrdered : sectionsOrdered r bytes.length = true := by
    simp [sectionsOrdered, hGvr, hGfr, hSr, hHr, hHp]
    omega
  simp only [read, hSize, hRegisters, ok_bind]
  rw [if_neg (by omega), if_neg (not_not_intro hVersion), hOrdered]
  simp only [hGvr, hGfr, hSr, hHr, hHp, Int.toNat_natCast, hGlobals, hFunctions, hStates, hHeap,
    ok_bind]
  rfl

/-- The image of a program fills its memory, is accepted by the reader and shows the program. -/
theorem read_assemble (hStorable : p.Storable) (hPositive : 0 < memory) (hRange : memory < 2 ^ 31)
    (h : assemble p memory = .ok bytes) :
    (bytes.length : Int) = memory ∧
      ∃ img, read bytes = .ok img ∧ img.Shows p ∧ img.Fresh p memory := by
  obtain ⟨s, hSections, hUsed, hBytes⟩ := assemble_eq_ok hPositive h
  obtain ⟨heap, hGlobals, hFunctions, hStates, hHeap⟩ := writeSections_eq_ok hSections
  obtain ⟨hUsedEq, hHrEq, hSrEq, hGfrEq⟩ := s.used_eq
  obtain ⟨-, hRecords, hEncode⟩ := writeGlobals_eq_ok hStorable.globals hGlobals
  have hLength : bytes.length = memory.toNat := by rw [hBytes, length_image _ (by omega)]
  have hSize : bytes.toArray.size < 2 ^ 31 := by rw [size_toArray]; omega
  obtain ⟨hHead, hGlobalsAt, hFunctionsAt, hStatesAt, hHeapAt⟩ :=
    @Sections.holds bytes.toArray s _ _ hBytes
  obtain ⟨hReadGlobals, hReadHeap⟩ := readValues_eq hStorable.globals hStorable.globalNames hGlobals
    hSize hGlobalsAt (hHeap ▸ hHeapAt) hGfrEq (hHeap ▸ hUsedEq) (by omega)
  obtain ⟨functions, hReadFunctions, hShowFunctions⟩ := readFunctions_eq hFunctions
    hStorable.functionNames hStorable.params hSize hFunctionsAt rfl
  obtain ⟨states, hReadStates, hShowStates⟩ := readStates_eq hStates hStorable.stateNames
    hStorable.events hStorable.ascending hStorable.frames hSize hStatesAt rfl
  obtain ⟨hGvr, hGfr, hSr, hHr, hHp⟩ := @initialRegisters_toInt p s memory (by omega)
  have hBlocks := GlobalData.length_blocks p.globals 0
  rw [← hHeap] at hEncode
  have hHeapLength := congrArg List.length hEncode
  rw [length_append, length_replicate, hBlocks] at hHeapLength
  refine ⟨by omega, _, read_eq (readRegisters_eq hHead) rfl hGvr hGfr hSr hHr hHp (by omega)
    (by omega) (by omega) (by omega) (by omega) hReadGlobals hReadFunctions hReadStates hReadHeap,
    ⟨GlobalData.entries_show _ _, hShowFunctions, hShowStates, GlobalData.blocks_keep _ _,
      (GlobalData.handles_ascend _ _ ?_).1⟩, ?_⟩
  · rw [hBlocks]
    rw [Heap.headerSize] at hHeapLength
    omega
  · exact fresh_of_initialRegisters hUsed hRange rfl
      (hRecords ▸ GlobalData.length_records hStorable.globals 0)
      (length_writeFunctions hFunctions hShowFunctions) (length_writeStates hStates hShowStates)
      hHeapLength

end Image

/-- A program with a global in place and two on the heap, a function, a state with two handlers and a
state without any. -/
def Program.small : Program where
  globals :=
    [⟨"n", .integer, 7, .integer 5⟩,
      ⟨"s", .string, 18, .string "hi"⟩,
      ⟨"l", .list, 29, .list [.integer 1, .key ""]⟩]
  functions := [⟨"f", 0, ⟨.integer, [⟨"x", .integer⟩], [], [.pushConst (.integer 1), .ret]⟩⟩]
  states :=
    [⟨"default", 0, [⟨⟨0⟩, ⟨.void, [], [⟨"y", .vector⟩], [.enterFrame 12, .ret]⟩⟩,
        ⟨⟨11⟩, ⟨.void, [], [], [.ret]⟩⟩]⟩,
      ⟨"", 1, []⟩]

theorem Program.small_storable : small.Storable where
  globalNames := by decide +kernel
  globals g hg := by
    simp only [small, mem_cons, not_mem_nil, or_false] at hg
    rcases hg with rfl | rfl | rfl <;> exact ⟨rfl, rfl⟩
  functionNames := by decide +kernel
  params := by decide
  stateNames := by decide +kernel
  frames := by decide
  events := by decide
  ascending := by decide

theorem Image.read_assemble_small : ∃ bytes, assemble .small 400 = .ok bytes ∧
    bytes.length = (400 : Int) ∧
    ∃ img, read bytes = .ok img ∧ img.Shows .small ∧ img.Fresh .small 400 := by
  have hRun : (assemble .small 400).isOk = true := by decide +kernel
  cases hBytes : assemble .small 400 with
  | error e => simp [hBytes, Except.isOk, Except.toBool] at hRun
  | ok bytes =>
    exact ⟨bytes, rfl, read_assemble Program.small_storable (by decide) (by decide) hBytes⟩

end Lsl
