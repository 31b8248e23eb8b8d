import Lsl.Proofs.Expansion
import Mathlib.Tactic.Linarith

/-! Machine code and its reader. The pieces of code of a body are placed one after the other, and the
displacements of jumps are written when all labels have their places; what is then read from the bytes
is the steps of the body's instructions, and every branch leads to the place of its label. -/
namespace Lsl

open List

variable {code : List Instr} {items : List CodeItem} {parts : List (List CodeItem)}

namespace CodeItem

def room : CodeItem → Nat
  | op _ x => 1 + x.size
  | label _ => 0
  | jump o types _ => 1 + (jumpOperand o types 0).size

def roomAll (items : List CodeItem) : Nat := (items.map room).sum

/-- The instructions of a piece of code that ends at `stop`, where `disp` gives the displacement of a
jump to a label. -/
def machine (disp : Label → Nat → Int32) (stop : Nat) : CodeItem → List (Opcode × Operand)
  | op o x => [(o, x)]
  | label _ => []
  | jump o types l => [(o, jumpOperand o types (disp l stop))]

def machineAll (disp : Label → Nat → Int32) (start : Nat) : List CodeItem → List (Opcode × Operand)
  | [] => []
  | i :: is => machine disp (start + i.room) i ++ machineAll disp (start + i.room) is

def waiting (stop : Nat) : CodeItem → List PendingJump
  | jump _ _ l => [⟨l, stop⟩]
  | op .. | label _ => []

def waitingAll (start : Nat) : List CodeItem → List PendingJump
  | [] => []
  | i :: is => waiting (start + i.room) i ++ waitingAll (start + i.room) is

def defined (start : Nat) : CodeItem → List (Label × Int)
  | label l => [(l, start)]
  | op .. | jump .. => []

def definedAll (start : Nat) : List CodeItem → List (Label × Int)
  | [] => []
  | i :: is => defined start i ++ definedAll (start + i.room) is

theorem size_jumpOperand (o : Opcode) (types : UInt8) (d d' : Int32) :
    (jumpOperand o types d).size = (jumpOperand o types d').size := by
  unfold jumpOperand
  split <;> rfl

theorem length_machine (disp : Label → Nat → Int32) (stop : Nat) (i : CodeItem) :
    (Instruction.encodeAll (i.machine disp stop)).length = i.room := by
  cases i with
  | op o x =>
    simp [machine, room]
    omega
  | label l => rfl
  | jump o types l =>
    have hSize := size_jumpOperand o types (disp l stop) 0
    simp [machine, room, hSize]
    omega

theorem length_machineAll (disp : Label → Nat → Int32) (start : Nat) (items : List CodeItem) :
    (Instruction.encodeAll (machineAll disp start items)).length = roomAll items := by
  induction items generalizing start with
  | nil => rfl
  | cons i is ih =>
    rw [machineAll, Instruction.encodeAll_append, length_append, length_machine, ih]
    rfl

theorem roomAll_cons (i : CodeItem) (is : List CodeItem) : roomAll (i :: is) = i.room + roomAll is :=
  rfl

theorem roomAll_append (is js : List CodeItem) : roomAll (is ++ js) = roomAll is + roomAll js := by
  simp [roomAll]

theorem machineAll_append (disp : Label → Nat → Int32) (start : Nat) (is js : List CodeItem) :
    machineAll disp start (is ++ js) =
      machineAll disp start is ++ machineAll disp (start + roomAll is) js := by
  induction is generalizing start with
  | nil => rfl
  | cons i is ih =>
    rw [cons_append, machineAll, ih, machineAll, append_assoc, roomAll_cons,
      Nat.add_assoc]

theorem waitingAll_append (start : Nat) (is js : List CodeItem) :
    waitingAll start (is ++ js) = waitingAll start is ++ waitingAll (start + roomAll is) js := by
  induction is generalizing start with
  | nil => rfl
  | cons i is ih =>
    rw [cons_append, waitingAll, ih, waitingAll, append_assoc, roomAll_cons,
      Nat.add_assoc]

theorem definedAll_append (start : Nat) (is js : List CodeItem) :
    definedAll start (is ++ js) = definedAll start is ++ definedAll (start + roomAll is) js := by
  induction is generalizing start with
  | nil => rfl
  | cons i is ih =>
    rw [cons_append, definedAll, ih, definedAll, append_assoc, roomAll_cons,
      Nat.add_assoc]

/-- Pieces of code that can be read back are instructions that can, whatever the displacements. -/
theorem machineAll_fits (h : ∀ i ∈ items, i.Fits) (disp : Label → Nat → Int32) (start : Nat) :
    ∀ m ∈ machineAll disp start items, m.2.Fits m.1.operandKind := by
  induction items generalizing start with
  | nil => simp [machineAll]
  | cons i is ih =>
    have hRest := ih (fun j hj => h j (by simp [hj])) (start + i.room)
    have hFirst := h i (by simp)
    intro m hm
    rcases List.mem_append.mp hm with hm | hm
    · cases i with
      | op o x =>
        obtain rfl := List.mem_singleton.mp hm
        exact hFirst
      | label l => cases hm
      | jump o types l =>
        obtain rfl := List.mem_singleton.mp hm
        exact hFirst _
    · exact hRest m hm

end CodeItem

namespace Chunk

open CodeItem

/-- One piece of code leaves all that was placed before as it was. Its jump has no displacement yet. -/
theorem place_eq (c : Chunk) (i : CodeItem) : Lowering.place c i =
    { code := c.code ++ Instruction.encodeAll (i.machine (fun _ _ => 0) (c.size + i.room))
      labels := (i.defined c.size).reverse ++ c.labels
      jumps := c.jumps ++ i.waiting (c.size + i.room) } := by
  cases i with
  | op o x => simp [Lowering.place, emit, append, machine, defined, waiting]
  | label l => simp [Lowering.place, define, defineAt, size, machine, defined, waiting]
  | jump o types l =>
    simp only [Lowering.place, emitJump, await, emit, append, size, machine, defined, waiting,
      jumpOperand, room, Instruction.encodeAll_cons, Instruction.encodeAll_nil, append_nil,
      reverse_nil, nil_append, length_append, length_cons,
      Operand.length_encode, mk.injEq, true_and, append_cancel_left_eq, List.cons.injEq,
      PendingJump.mk.injEq, and_true]
    omega

theorem size_place (c : Chunk) (i : CodeItem) : (Lowering.place c i).size = c.size + i.room := by
  rw [place_eq]
  simp [size, length_machine]

theorem foldl_place (items : List CodeItem) (c : Chunk) : items.foldl Lowering.place c =
    { code := c.code ++ Instruction.encodeAll (machineAll (fun _ _ => 0) c.size items)
      labels := (definedAll c.size items).reverse ++ c.labels
      jumps := c.jumps ++ waitingAll c.size items } := by
  induction items generalizing c with
  | nil => simp [machineAll, definedAll, waitingAll]
  | cons i is ih =>
    rw [foldl_cons, ih, size_place, place_eq]
    simp [machineAll, definedAll, waitingAll]

def displacement (labels : List (Label × Int)) (l : Label) (site : Nat) : Int32 :=
  Int32.ofInt ((labels.lookup l).getD 0 - site)

/-- Four bytes between others are replaced in place. -/
theorem overwrite_middle {front old new rest : Bytes} (h : old.length = new.length) {offset : Int}
    (hOffset : offset = front.length) :
    overwrite (front ++ old ++ rest) offset new = front ++ new ++ rest := by
  subst hOffset
  have hInside : (0 : Int) ≤ front.length ∧
      (front.length : Int) + new.length ≤ (front ++ old ++ rest).length := by
    simp only [length_append]
    omega
  have hFront : (front ++ old ++ rest).take front.length = front := by
    rw [append_assoc, take_left]
  have hRest : (front ++ old ++ rest).drop (front.length + new.length) = rest := by
    rw [← h, ← length_append, drop_left]
  rw [overwrite, if_pos hInside, Int.toNat_natCast, hFront, hRest]

theorem encode_jump (o : Opcode) (types : UInt8) (l : Label) : ∃ head : Bytes, ∀ disp stop,
    Instruction.encodeAll ((jump o types l).machine disp stop) = head ++ int32 (disp l stop) := by
  by_cases hPlain : o = .jump
  · exact ⟨[o.byte], by simp [machine, jumpOperand, hPlain, Operand.encode]⟩
  · exact ⟨[o.byte, types], by simp [machine, jumpOperand, hPlain, Operand.encode]⟩

/-- A jump that ends at `stop` gets its displacement by overwriting the word before that place. -/
theorem overwrite_jump (o : Opcode) (types : UInt8) (l : Label) {front rest : Bytes} {stop : Nat}
    (hStop : stop = front.length + (jump o types l).room) (disp disp' : Label → Nat → Int32) :
    overwrite (front ++ Instruction.encodeAll ((jump o types l).machine disp stop) ++ rest)
      (stop - 4) (int32 (disp' l stop)) =
    front ++ Instruction.encodeAll ((jump o types l).machine disp' stop) ++ rest := by
  have hRoom := length_machine disp stop (jump o types l)
  obtain ⟨head, hHead⟩ := encode_jump o types l
  rw [hHead, length_append, length_int32] at hRoom
  rw [hHead, hHead, ← append_assoc, ← append_assoc]
  refine overwrite_middle (by simp) ?_
  rw [length_append]
  omega

/-- The displacements are written into the code of open jumps; none is left without its label. -/
theorem resolve_eq {labels : List (Label × Int)} {items : List CodeItem} {front code : Bytes}
    (h : resolve labels (waitingAll front.length items)
      (front ++ Instruction.encodeAll (machineAll (fun _ _ => 0) front.length items)) =
        (code, none)) :
    (∀ j ∈ waitingAll front.length items, (labels.lookup j.label).isSome = true) ∧
      code = front ++
        Instruction.encodeAll (machineAll (displacement labels) front.length items) := by
  induction items generalizing front with
  | nil =>
    cases h
    simp [waitingAll, machineAll]
  | cons i is ih =>
    -- The induction goes on behind the bytes of `i`, whose jump has its displacement then.
    have hRest := @ih (front ++
      Instruction.encodeAll (i.machine (displacement labels) (front.length + i.room)))
    rw [length_append, length_machine] at hRest
    rw [machineAll, Instruction.encodeAll_append, ← append_assoc] at h ⊢
    cases i with
    | op o x | label l =>
      rw [waitingAll] at h ⊢
      exact hRest h
    | jump o types l =>
      cases hLabel : labels.lookup l with
      | none =>
        simp only [waitingAll, waiting, singleton_append, resolve, hLabel] at h
        cases h
      | some goal =>
        simp only [waitingAll, waiting, singleton_append, resolve, hLabel] at h
        have hGoal : intWord (goal - (front.length + (jump o types l).room : Nat)) =
            int32 (displacement labels l (front.length + (jump o types l).room)) := by
          simp [intWord, displacement, hLabel]
        rw [hGoal, overwrite_jump o types l rfl] at h
        obtain ⟨hDefined, hCode⟩ := hRest h
        refine ⟨fun j hj => ?_, hCode⟩
        simp only [waitingAll, waiting, singleton_append, mem_cons] at hj
        rcases hj with rfl | hj
        · rw [hLabel]
          rfl
        · exact hDefined j hj

end Chunk

namespace Lowering

open CodeItem

theorem expandFrom_eq_ok {place : Nat} (h : expandFrom place code = .ok items) :
    ∃ parts, Forall₂ Expands code parts ∧ items = parts.flatten := by
  induction code generalizing place items with
  | nil =>
    cases h
    exact ⟨[], .nil, rfl⟩
  | cons i is ih =>
    rw [expandFrom] at h
    split at h
    · cases h
    · rename_i part hPart
      obtain ⟨rest, hRest, rfl⟩ := map_eq_ok.mp h
      obtain ⟨parts, hParts, rfl⟩ := ih hRest
      exact ⟨part :: parts, .cons (expand_expands hPart) hParts, rfl⟩

/-- The code of a body: its pieces one after the other, with the displacements to their labels. -/
theorem lower_eq_ok {b : Body} {c : Chunk} (h : b.lower = .ok c) :
    ∃ parts, Forall₂ Expands b.code parts ∧
      (∀ j ∈ waitingAll 0 parts.flatten,
        ((definedAll 0 parts.flatten).reverse.lookup j.label).isSome = true) ∧
      c.code = Instruction.encodeAll (machineAll
        (Chunk.displacement (definedAll 0 parts.flatten).reverse) 0 parts.flatten) := by
  obtain ⟨items, hItems, hConnect⟩ := bind_eq_ok.mp h
  obtain ⟨parts, hParts, rfl⟩ := expandFrom_eq_ok hItems
  rw [Chunk.foldl_place] at hConnect
  simp only [Chunk.connect, Chunk.size, length_nil, nil_append, append_nil]
    at hConnect
  rcases hResolve : Chunk.resolve (definedAll 0 parts.flatten).reverse
    (waitingAll 0 parts.flatten)
    (Instruction.encodeAll (machineAll (fun _ _ => 0) 0 parts.flatten)) with ⟨code, _ | e⟩
  · rw [hResolve] at hConnect
    cases hConnect
    obtain ⟨hDefined, hCode⟩ := @Chunk.resolve_eq _ _ [] _ hResolve
    exact ⟨parts, hParts, hDefined, hCode⟩
  · rw [hResolve] at hConnect
    cases hConnect

end Lowering

/-- An instruction that was read is a step of code, where `Place` says to where labels lead. -/
def MachineStep.IsRead (Place : Label → Int → Prop) : MachineStep → Instruction → Prop
  | op name x, i => i.op.name = name ∧ i.operand = x
  | branch name none l, i => i.op.name = name ∧ (∃ d, i.operand = .int d) ∧ Place l i.target
  | branch name (some types) l, i =>
    i.op.name = name ∧ (∃ d, i.operand = .typedJump types d) ∧ Place l i.target

/-- Where the last definition of a label stands, if `runs` are the instructions read for each
instruction of the code. -/
def LabelPlace (code : List Instr) (runs : List (List Instruction)) (l : Label) (place : Int) :
    Prop :=
  ∃ before after, code = before ++ .label l :: after ∧ .label l ∉ after ∧
    place = Instruction.room (runs.take before.length).flatten

namespace Lowering

open CodeItem

def runs (disp : Label → Nat → Int32) (start : Nat) : List (List CodeItem) → List (List Instruction)
  | [] => []
  | p :: ps => Instruction.locate start (machineAll disp start p) :: runs disp (start + roomAll p) ps

theorem flatten_runs (disp : Label → Nat → Int32) (start : Nat) (parts : List (List CodeItem)) :
    (runs disp start parts).flatten =
      Instruction.locate start (machineAll disp start parts.flatten) := by
  induction parts generalizing start with
  | nil => rfl
  | cons p ps ih =>
    rw [runs, flatten_cons, ih, flatten_cons, machineAll_append,
      Instruction.locate_append, length_machineAll]

theorem room_locate (disp : Label → Nat → Int32) (start : Nat) (items : List CodeItem) :
    Instruction.room (Instruction.locate start (machineAll disp start items)) = roomAll items := by
  rw [← Instruction.length_encodeAll, length_machineAll]

theorem runs_take (disp : Label → Nat → Int32) (start n : Nat) (parts : List (List CodeItem)) :
    (runs disp start parts).take n = runs disp start (parts.take n) := by
  induction parts generalizing start n with
  | nil => simp [runs]
  | cons p ps ih =>
    cases n with
    | zero => rfl
    | succ n => rw [runs, take_succ_cons, ih, take_succ_cons, runs]

/-- A jump leads to the place of its label, as long as both lie within the reach of a word. -/
theorem target_jump {labels : List (Label × Int)} {o : Opcode} {types : UInt8} {l : Label}
    {start stop : Nat} {place : Int} (hLabel : labels.lookup l = some place)
    (hStop : stop = start + (jump o types l).room) (hLow : 0 ≤ place) (hHigh : place < 2 ^ 31)
    (hReach : stop < 2 ^ 31) :
    Instruction.target ⟨start, o, jumpOperand o types (Chunk.displacement labels l stop)⟩ =
      place := by
  have hInt (d : Int32) : (jumpOperand o types d).intValue = d := by
    unfold jumpOperand
    split <;> rfl
  have hWord : (Chunk.displacement labels l stop).toInt = place - stop := by
    rw [Chunk.displacement, hLabel, Option.getD_some]
    exact toInt_ofInt (by omega) (by omega)
  have hSize := size_jumpOperand o types (Chunk.displacement labels l stop) 0
  simp only [Instruction.target, Instruction.length, hInt, hWord, hSize]
  rw [room] at hStop
  omega

/-- The instructions read for pieces of code are their steps, where each label leads to its place. -/
theorem locate_isRead {labels : List (Label × Int)} {Place : Label → Int → Prop}
    {items : List CodeItem} {start : Nat}
    (hPlace : ∀ j ∈ waitingAll start items, ∃ place, labels.lookup j.label = some place ∧
      0 ≤ place ∧ place < 2 ^ 31 ∧ Place j.label place)
    (hReach : start + roomAll items < 2 ^ 31) :
    Forall₂ (MachineStep.IsRead Place) (items.filterMap step?)
      (Instruction.locate start (machineAll (Chunk.displacement labels) start items)) := by
  induction items generalizing start with
  | nil => exact .nil
  | cons i is ih =>
    rw [roomAll_cons, ← Nat.add_assoc] at hReach
    have hRest := @ih (start + i.room) (fun j hj => hPlace j (by simp [waitingAll, hj])) hReach
    cases i with
    | op o x => exact .cons ⟨rfl, rfl⟩ hRest
    | label l => exact hRest
    | jump o types l =>
      obtain ⟨place, hLabel, hLow, hHigh, hGoal⟩ :=
        hPlace ⟨l, start + (jump o types l).room⟩ (by simp [waitingAll, waiting])
      have hTarget := @target_jump labels o types l start _ place hLabel rfl hLow hHigh (by omega)
      rw [← hTarget] at hGoal
      have hSize := size_jumpOperand o types
        (Chunk.displacement labels l (start + (jump o types l).room)) 0
      refine .cons ?_ ?_
      · by_cases hPlain : o = .jump
        · rw [if_pos hPlain]
          exact ⟨rfl, ⟨_, if_pos hPlain⟩, hGoal⟩
        · rw [if_neg hPlain]
          exact ⟨rfl, ⟨_, if_neg hPlain⟩, hGoal⟩
      · rw [hSize]
        exact hRest

/-- A label has a place exactly if it is defined. -/
theorem lookup_definedAll_eq_none {l : Label} (start : Nat) :
    (definedAll start items).reverse.lookup l = none ↔ .label l ∉ items := by
  induction items generalizing start with
  | nil => simp [definedAll]
  | cons i is ih =>
    rw [definedAll, reverse_append, lookup_append, Option.or_eq_none_iff, ih,
      mem_cons, not_or, and_comm]
    refine and_congr_left fun _ => ?_
    cases i with
    | op o x | jump o types l' => simp [defined]
    | label l' =>
      by_cases hSame : l = l'
      · simp [defined, hSame]
      · simp [defined, lookup_cons, hSame, beq_false_of_ne hSame]

theorem mem_label_iff (h : Forall₂ Expands code parts) (l : Label) :
    .label l ∈ parts.flatten ↔ .label l ∈ code := by
  induction h with
  | nil => simp
  | @cons i p code parts hHead _ ih =>
    have hHere : .label l ∈ p ↔ .label l = i := by
      constructor
      · exact fun hMem => (hHead.eq_label l hMem).symm
      · rintro rfl
        simp [hHead.label l rfl]
    rw [flatten_cons, mem_append, mem_cons, ih, hHere]

/-- The place found for a label is that of its last definition. -/
theorem lookup_definedAll (h : Forall₂ Expands code parts) {start : Nat} {l : Label} {place : Int}
    (hLookup : (definedAll start parts.flatten).reverse.lookup l = some place) :
    ∃ before after, code = before ++ .label l :: after ∧ .label l ∉ after ∧
      place = start + roomAll (parts.take before.length).flatten := by
  induction h generalizing start with
  | nil => cases hLookup
  | @cons i p code parts hHead hTail ih =>
    rw [flatten_cons, definedAll_append, reverse_append, lookup_append] at hLookup
    cases hLater : (definedAll (start + roomAll p) parts.flatten).reverse.lookup l with
    | some later =>
      rw [hLater, Option.some_or] at hLookup
      cases hLookup
      obtain ⟨before, after, rfl, hLast, rfl⟩ := ih hLater
      refine ⟨i :: before, after, rfl, hLast, ?_⟩
      rw [length_cons, take_succ_cons, flatten_cons, roomAll_append]
      push_cast
      ring
    | none =>
      rw [hLater, Option.none_or] at hLookup
      have hLast : .label l ∉ code := by
        rwa [lookup_definedAll_eq_none, mem_label_iff hTail] at hLater
      have hHere : .label l ∈ p := by
        by_contra hNot
        rw [(lookup_definedAll_eq_none start).mpr hNot] at hLookup
        cases hLookup
      obtain rfl := hHead.eq_label l hHere
      rw [hHead.label l rfl] at hLookup
      refine ⟨[], code, rfl, hLast, ?_⟩
      simpa [definedAll, defined, roomAll, eq_comm] using hLookup

end Lowering

/-- Code reads as the steps of a body's instructions: one run of instructions for each of them, without
a gap from the first byte to the last. A branch leads to where the code after the last definition of
its label starts, which is the start of an instruction or the end of the code. -/
def Body.ReadsAs (b : Body) (code : Bytes) : Prop :=
  ∃ runs, Instruction.decodeAll code = (runs.flatten, none) ∧
    Instruction.Cover 0 code.length runs.flatten ∧
    Forall₂ (fun i run => Forall₂ (MachineStep.IsRead (LabelPlace b.code runs)) i.steps run)
      b.code runs ∧
    ∀ l place, LabelPlace b.code runs l place →
      place = code.length ∨ ∃ i ∈ runs.flatten, (i.offset : Int) = place

namespace Lowering

open CodeItem

/-- The runs of parts that are expanded from code, part by part. -/
theorem runs_isRead {labels : List (Label × Int)} {Place : Label → Int → Prop}
    (h : Forall₂ Expands code parts) {start : Nat}
    (hPlace : ∀ j ∈ waitingAll start parts.flatten, ∃ place, labels.lookup j.label = some place ∧
      0 ≤ place ∧ place < 2 ^ 31 ∧ Place j.label place)
    (hReach : start + roomAll parts.flatten < 2 ^ 31) :
    Forall₂ (fun i run => Forall₂ (MachineStep.IsRead Place) i.steps run) code
      (runs (Chunk.displacement labels) start parts) := by
  induction h generalizing start with
  | nil => exact .nil
  | @cons i p code parts hHead _ ih =>
    rw [flatten_cons, roomAll_append, ← Nat.add_assoc] at hReach
    rw [flatten_cons, waitingAll_append] at hPlace
    have hFirst := @locate_isRead labels Place p start
      (fun j hj => hPlace j (mem_append_left _ hj)) (by omega)
    rw [hHead.steps] at hFirst
    exact .cons hFirst (ih (fun j hj => hPlace j (mem_append_right _ hj)) hReach)

/-- The room of the parts before some place is that of the instructions read for them. -/
theorem room_runs_take (disp : Label → Nat → Int32) (n : Nat) (parts : List (List CodeItem)) :
    Instruction.room ((runs disp 0 parts).take n).flatten = roomAll (parts.take n).flatten := by
  rw [runs_take, flatten_runs, room_locate]

theorem roomAll_take_le (n : Nat) (parts : List (List CodeItem)) :
    roomAll (parts.take n).flatten ≤ roomAll parts.flatten := by
  calc roomAll (parts.take n).flatten
      ≤ roomAll (parts.take n).flatten + roomAll (parts.drop n).flatten := Nat.le_add_right ..
    _ = roomAll parts.flatten := by
      rw [← roomAll_append, ← flatten_append, take_append_drop]

end Lowering

/-- The machine code of a body is read as the steps of its instructions. -/
theorem Body.lower_readsAs {b : Body} {c : Chunk} (h : b.lower = .ok c)
    (hText : ∀ i ∈ b.code, ∀ s ∈ i.strings, 0 ∉ Text.bytes s) (hSize : c.code.length < 2 ^ 31) :
    b.ReadsAs c.code := by
  obtain ⟨parts, hParts, hDefined, hCode⟩ := Lowering.lower_eq_ok h
  let labels := (CodeItem.definedAll 0 parts.flatten).reverse
  let disp := Chunk.displacement labels
  have hLength : c.code.length = CodeItem.roomAll parts.flatten := by
    rw [hCode, CodeItem.length_machineAll]
  have hFlatten := Lowering.flatten_runs disp 0 parts
  have hFits : ∀ item ∈ parts.flatten, item.Fits := by
    intro item hItem
    obtain ⟨p, hp, hItem⟩ := List.mem_flatten.mp hItem
    obtain ⟨i, hi, hExpands⟩ := exists_of_mem_right hParts hp
    exact hExpands.fits (hText i hi) item hItem
  have hCover : Instruction.Cover 0 c.code.length (Lowering.runs disp 0 parts).flatten := by
    rw [hFlatten, hCode, ← Nat.zero_add (List.length _)]
    exact Instruction.cover_locate 0 _
  refine ⟨Lowering.runs disp 0 parts, ?_, hCover, ?_, ?_⟩
  · rw [hFlatten, hCode]
    exact Instruction.decodeAll_encodeAll (CodeItem.machineAll_fits hFits disp 0)
  · refine Lowering.runs_isRead hParts (fun j hj => ?_) (by omega)
    obtain ⟨place, hPlace⟩ := Option.isSome_iff_exists.mp (hDefined j hj)
    obtain ⟨before, after, hSplit, hLast, hRoom⟩ := Lowering.lookup_definedAll hParts hPlace
    have hInside := Lowering.roomAll_take_le before.length parts
    refine ⟨place, hPlace, by omega, by omega, before, after, hSplit, hLast, ?_⟩
    rw [Lowering.room_runs_take, hRoom]
    simp
  · rintro l place ⟨before, after, _, _, rfl⟩
    rw [← take_append_drop before.length (Lowering.runs disp 0 parts), flatten_append]
      at hCover
    rcases hCover.boundary with hEnd | ⟨i, hi, hOffset⟩
    · left
      omega
    · right
      refine ⟨i, ?_, by omega⟩
      obtain ⟨run, hRun, hi⟩ := List.mem_flatten.mp hi
      exact List.mem_flatten.mpr ⟨run, mem_of_mem_drop hRun, hi⟩

/-- A loop over calls of the library, one of them with a wide index, that builds a list within a
list. -/
def Body.looping : Body :=
  { result := .vector
    params := [⟨"v", .vector⟩]
    locals := []
    code :=
      [.enterFrame 0,
        .label 1,
        .pushLocal .float 0 "z",
        .jumpNot .float 2,
        .callBegin .void,
        .pushConst (.list [.string "a", .list [.key "k"]]),
        .call ⟨true, 300, "llSay", .void, [.list], 4⟩,
        .jump 1,
        .label 2,
        .callBegin .vector,
        .call ⟨true, 7, "llGetPos", .vector, [], 0⟩,
        .returnValue .vector,
        .unwind [.vector],
        .ret] }

theorem Body.lower_readsAs_looping : ∃ c, looping.lower = .ok c ∧
    (∀ i ∈ looping.code, ∀ s ∈ i.strings, 0 ∉ Text.bytes s) ∧ c.code.length < 2 ^ 31 ∧
    looping.ReadsAs c.code := by
  have hLength : looping.lower.toOption.map (·.code.length) = some 67 := by decide +kernel
  have hText : ∀ i ∈ looping.code, ∀ s ∈ i.strings, 0 ∉ Text.bytes s := by
    decide +kernel
  cases hLower : looping.lower with
  | error e => simp [hLower, Except.toOption] at hLength
  | ok c =>
    have hSize : c.code.length < 2 ^ 31 := by
      simp only [hLower, Except.toOption, Option.map_some, Option.some.injEq] at hLength
      omega
    exact ⟨c, rfl, hText, hSize, lower_readsAs hLower hText hSize⟩

end Lsl
