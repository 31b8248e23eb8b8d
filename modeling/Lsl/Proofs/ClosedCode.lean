import Lsl.Proofs.AcceptedImages
import Lsl.Proofs.Backends

/-! Closed machine code. The code of a body is read to its last byte, ends in a return, jumps to its own
instructions and names only functions and states of the image, unless one of its texts holds a NUL: a
text ends at its first NUL for the reader, which takes what follows for instructions. -/
namespace Lsl

open List

variable {o : Opcode} {is : List Instruction} {code : List Instr} {parts : List (List CodeItem)}
  {p : Program} {memory : Int} {functions states : Nat} {script : Script}

/-- An instruction that leads to one of `is`, to one of the functions or to one of the states. -/
structure Instruction.Inside (is : List Instruction) (functions states : Nat) (i : Instruction) :
    Prop where
  jump : i.op.isJump = true → ∃ k ∈ is, (k.offset : Int) = i.target
  call : i.op = .call → 0 ≤ i.operand.intValue.toInt ∧ i.operand.intValue.toInt < functions
  state : i.op = .state → 0 ≤ i.operand.intValue.toInt ∧ i.operand.intValue.toInt < states

/-- Machine code that is read to its end, where it returns, and that leads to nothing but its own
instructions and the functions and states of an image. -/
def ClosedCode (functions states : Nat) (code : Bytes) : Prop :=
  ∃ is, Instruction.decodeAll code = (is, none) ∧ is.getLast?.map (·.op) = some .ret ∧
    ∀ i ∈ is, i.offset < code.length ∧ i.Inside is functions states

namespace Opcode

theorem name_of_isJump (h : o.isJump = true) : o.name ∈ ["JUMP", "JUMPIF", "JUMPNIF"] := by
  obtain rfl | rfl | rfl := eq_of_isJump h <;> decide +kernel

/-- No other byte is listed as a return. -/
theorem eq_ret_of_name (h : o.name = "RETURN") : o = .ret := by
  have hTable : ∀ row ∈ table, row.2.1 = "RETURN" → row.1 = 0x95 := by decide +kernel
  unfold name at h
  split at h
  · next n k hLookup =>
    obtain ⟨front, rest, hSplit, _⟩ := List.lookup_eq_some_iff.mp hLookup
    exact congrArg Opcode.mk (hTable (o.byte, n, k) (by simp [hSplit]) h)
  · have hText := congrArg String.toList h
    simp [toString] at hText

end Opcode

namespace MachineStep

/-- A step that enters only one of the functions or one of the states. -/
def Inside (functions states : Nat) : MachineStep → Prop
  | op name x => name ∉ ["JUMP", "JUMPIF", "JUMPNIF"] ∧
      (name = "CALL" → ∃ n : Nat, n < functions ∧ x = .int (Int32.ofInt n)) ∧
      (name = "STATE" → ∃ n : Nat, n < states ∧ x = .int (Int32.ofInt n))
  | branch name _ _ => name ∈ ["JUMP", "JUMPIF", "JUMPNIF"]

theorem inside_op {name : String} {x : Operand}
    (h : name ∉ ["JUMP", "JUMPIF", "JUMPNIF", "CALL", "STATE"]) : (op name x).Inside functions states := by
  simp only [mem_cons, not_mem_nil, or_false, not_or] at h
  simp [Inside, h]

/-- What is read for such a step stays inside, where labels lead to instructions of the code. -/
theorem IsRead.inside {s : MachineStep} {i : Instruction}
    (h : s.IsRead (fun _ place => ∃ k ∈ is, (k.offset : Int) = place) i) (hs : s.Inside functions states)
    (hFunctions : functions ≤ 2 ^ 31) (hStates : states ≤ 2 ^ 31) : i.Inside is functions states := by
  cases s with
  | op name x =>
    obtain ⟨hName, hOperand⟩ := h
    obtain ⟨hJump, hCall, hState⟩ := hs
    have hValue : ∀ {n count : Nat}, n < count → count ≤ 2 ^ 31 →
        0 ≤ (Int32.ofInt n).toInt ∧ (Int32.ofInt n).toInt < count := by
      intro n count hn hCount
      rw [toInt_ofInt (by omega) (by omega)]
      omega
    refine ⟨fun hOp => ?_, fun hOp => ?_, fun hOp => ?_⟩
    · exact absurd (hName ▸ Opcode.name_of_isJump hOp) hJump
    · obtain ⟨n, hn, rfl⟩ := hCall (by rw [← hName, hOp]; rfl)
      rw [hOperand]
      exact hValue hn hFunctions
    · obtain ⟨n, hn, rfl⟩ := hState (by rw [← hName, hOp]; rfl)
      rw [hOperand]
      exact hValue hn hStates
  | branch name types l =>
    have hRead : i.op.name = name ∧ ∃ k ∈ is, (k.offset : Int) = i.target := by
      cases types with
      | none => exact ⟨h.1, h.2.2⟩
      | some _ => exact ⟨h.1, h.2.2⟩
    obtain ⟨hName, hTarget⟩ := hRead
    have hJump : i.op.name ∈ ["JUMP", "JUMPIF", "JUMPNIF"] := hName ▸ hs
    refine ⟨fun _ => hTarget, fun hOp => ?_, fun hOp => ?_⟩
    · rw [hOp] at hJump
      exact absurd hJump (by decide +kernel)
    · rw [hOp] at hJump
      exact absurd hJump (by decide +kernel)

end MachineStep

namespace Value

open MachineStep

mutual

/-- The steps that push a constant enter nothing. -/
theorem steps_inside : ∀ v : Value, ∀ s ∈ v.steps, s.Inside functions states
  | .list vs => by
    have hElements := stepsAll_inside vs
    have hCollapse : (withInt "STACKTOL" vs.length).Inside functions states :=
      inside_op (by decide +kernel)
    simpa [steps, or_imp, forall_and] using ⟨hElements, hCollapse⟩
  | .key s => by
    have hText : (op "PUSHARGS" (.string (Text.bytes s))).Inside functions states :=
      inside_op (by decide +kernel)
    have hCast : (withTypes "CAST" .string .key).Inside functions states := inside_op (by decide +kernel)
    simpa [steps] using ⟨hText, hCast⟩
  | .integer n | .float n | .string n | .vector .. | .rotation .. | .void | .unknown _ => by
    intro s hs
    obtain rfl := List.mem_singleton.mp hs
    exact inside_op (by decide +kernel)

theorem stepsAll_inside : ∀ vs : List Value, ∀ s ∈ stepsAll vs, s.Inside functions states
  | [] => by simp [stepsAll]
  | v :: vs => by
    have hHead := steps_inside v
    have hTail := stepsAll_inside vs
    simpa [stepsAll, or_imp, forall_and] using ⟨hHead, hTail⟩

end

end Value

namespace Instr

open MachineStep

/-- An instruction that calls one of the functions or changes to one of the states, if any. -/
structure Numbered (functions states : Nat) (i : Instr) : Prop where
  call : ∀ c, i = .call c → c.library = false → ∃ n : Nat, n < functions ∧ c.index = n
  state : ∀ k name, i = .state k name → ∃ n : Nat, n < states ∧ k = n

/-- The steps of an instruction enter what the instruction names. -/
theorem Numbered.steps_inside {i : Instr} (h : i.Numbered functions states) :
    ∀ s ∈ i.steps, s.Inside functions states := by
  have hSingle : ∀ {s : MachineStep}, s.Inside functions states →
      ∀ t ∈ [s], t.Inside functions states := by
    intro s hs t ht
    obtain rfl := List.mem_singleton.mp ht
    exact hs
  cases i with
  | pushConst v => exact v.steps_inside
  | pushEmpty t => exact hSingle (inside_op (by cases t <;> simp [zeroName]))
  | pushLocal t o m | pushGlobal t o m | pop t | returnValue t =>
    exact hSingle (inside_op (by cases t <;> simp [Ty.mark]))
  | store g t o m k =>
    exact hSingle (inside_op (by cases g <;> cases k <;> cases t <;> simp [storeName, Ty.mark]))
  | unary op t | binary op l r => exact hSingle (inside_op (by cases op <;> simp [Operator.mnemonic]))
  | nop | cast s t | toList n | ret | print t => exact hSingle (inside_op (by decide +kernel))
  | jump l | jumpIf t l | jumpNot t l => exact hSingle (by decide +kernel : _ ∈ _)
  | callBegin t =>
    have hBase : (bare "PUSHBP").Inside functions states := inside_op (by decide +kernel)
    have hZero : (bare (zeroName t)).Inside functions states :=
      inside_op (by cases t <;> simp [zeroName])
    intro s hs
    rcases List.mem_append.mp hs with hs | hs
    · split at hs
      · cases hs
      · exact hSingle hZero s hs
    · exact hSingle hBase s hs
  | call c =>
    have hCallee : (calleeStep c).Inside functions states := by
      unfold calleeStep
      split
      · next hOwn =>
        obtain ⟨n, hn, hIndex⟩ := h.call c rfl (by simpa using hOwn)
        exact ⟨by decide +kernel, fun _ => ⟨n, hn, by rw [hIndex]⟩, fun hName => by simp at hName⟩
      · split <;> exact inside_op (by decide +kernel)
    simp only [steps, forall_mem_cons, not_mem_nil, false_imp_iff, implies_true, and_true]
    exact ⟨inside_op (by decide +kernel), inside_op (by decide +kernel), inside_op (by decide +kernel),
      inside_op (by decide +kernel), hCallee⟩
  | enterFrame n =>
    intro s hs
    rw [steps] at hs
    split at hs
    · exact hSingle (inside_op (by decide +kernel)) s hs
    · cases hs
  | unwind ts =>
    intro s hs
    obtain ⟨t, _, rfl⟩ := List.mem_map.mp hs
    exact inside_op (by cases t <;> simp [Ty.mark])
  | state k name =>
    obtain ⟨n, hn, rfl⟩ := h.state k name rfl
    exact hSingle ⟨by decide +kernel, fun hName => by simp at hName, fun _ => ⟨n, hn, rfl⟩⟩
  | build t | label l | unknown n => simp [steps]

end Instr

namespace Lowering

open CodeItem

theorem flatten_steps (h : Forall₂ Expands code parts) :
    parts.flatten.filterMap step? = code.flatMap Instr.steps := by
  induction h with
  | nil => rfl
  | cons hHead _ ih => rw [flatten_cons, filterMap_append, hHead.steps, ih, flatMap_cons]

theorem machineAll_ne_nil {items : List CodeItem} (h : items.filterMap step? ≠ [])
    (disp : Label → Nat → Int32)
    (start : Nat) : machineAll disp start items ≠ [] := by
  induction items generalizing start with
  | nil => exact absurd rfl h
  | cons i is ih =>
    cases i with
    | op o x | jump o types l => simp [machineAll, machine]
    | label l => exact ih h (start + 0)

/-- A label of code that goes on behind it leads to an instruction. -/
theorem label_start (hParts : Forall₂ Expands code parts) (hEnds : code.getLast? = some .ret) {l : Label}
    {place : Int} (hLookup : (definedAll 0 parts.flatten).reverse.lookup l = some place)
    (disp : Label → Nat → Int32) :
    ∃ k ∈ Instruction.locate 0 (machineAll disp 0 parts.flatten), (k.offset : Int) = place := by
  obtain ⟨before, after, rfl, _, rfl⟩ := lookup_definedAll hParts hLookup
  have hLater := forall₂_drop before.length hParts
  rw [drop_left] at hLater
  -- A return stands behind the label, so that the code from there on starts with an instruction.
  have hRet := ret_mem_after hEnds rfl
  have hSteps : (parts.drop before.length).flatten.filterMap step? ≠ [] := by
    rw [flatten_steps hLater]
    have hStep : MachineStep.bare "RETURN" ∈ Instr.ret.steps := mem_singleton_self _
    exact ne_nil_of_mem (List.mem_flatMap.mpr ⟨.ret, mem_cons_of_mem _ hRet, hStep⟩)
  obtain ⟨m, ms, hMachine⟩ := exists_cons_of_ne_nil (machineAll_ne_nil hSteps disp
    (0 + roomAll (parts.take before.length).flatten))
  rw [← take_append_drop before.length parts, flatten_append, machineAll_append, hMachine,
    Instruction.locate_append, length_machineAll, take_append_drop]
  exact ⟨⟨0 + roomAll (parts.take before.length).flatten, m.1, m.2⟩,
    by simp [Instruction.locate], by simp⟩

end Lowering

theorem Instruction.Cover.bounds {start stop : Nat} (h : Cover start stop is) :
    start ≤ stop ∧ ∀ i ∈ is, i.offset < stop := by
  induction is generalizing start with
  | nil => exact ⟨Nat.le_of_eq h, by simp⟩
  | cons i is ih =>
    obtain ⟨hStart, hRest⟩ := h
    obtain ⟨hStop, hBefore⟩ := ih hRest
    have hLength : i.length = 1 + i.operand.size := rfl
    refine ⟨by omega, ?_⟩
    simp only [forall_mem_cons]
    exact ⟨by omega, hBefore⟩

/-- A body whose texts hold no NUL. -/
def Body.Plain (b : Body) : Prop := ∀ i ∈ b.code, ∀ s ∈ i.strings, 0 ∉ Text.bytes s

/-- A body that returns at its end, and of which the calls and changes of state are numbered within a
program. -/
structure Body.Bound (functions states : Nat) (b : Body) : Prop where
  returns : b.code.getLast? = some .ret
  numbered : ∀ i ∈ b.code, i.Numbered functions states

/-- The machine code of such a body is closed, unless its texts hold a NUL. -/
theorem Body.Bound.lower_closed {b : Body} {c : Chunk} (hb : b.Bound functions states) (h : b.lower = .ok c)
    (hPlain : b.Plain) (hSize : c.code.length < 2 ^ 31) (hFunctions : functions ≤ 2 ^ 31)
    (hStates : states ≤ 2 ^ 31) :
    ClosedCode functions states c.code := by
  obtain ⟨parts, hParts, hDefined, hCode⟩ := Lowering.lower_eq_ok h
  let disp := Chunk.displacement (CodeItem.definedAll 0 parts.flatten).reverse
  let is := Instruction.locate 0 (CodeItem.machineAll disp 0 parts.flatten)
  have hLength : c.code.length = CodeItem.roomAll parts.flatten := by
    rw [hCode, CodeItem.length_machineAll]
  have hFits : ∀ item ∈ parts.flatten, item.Fits := by
    intro item hItem
    obtain ⟨p, hp, hItem⟩ := List.mem_flatten.mp hItem
    obtain ⟨i, hi, hExpands⟩ := exists_of_mem_right hParts hp
    exact hExpands.fits (hPlain i hi) item hItem
  have hDecode : Instruction.decodeAll c.code = (is, none) := by
    rw [hCode]
    exact Instruction.decodeAll_encodeAll (CodeItem.machineAll_fits hFits disp 0)
  have hCover : Instruction.Cover 0 c.code.length is := by
    rw [hCode, ← Nat.zero_add (List.length _)]
    exact Instruction.cover_locate 0 _
  -- What is read are the steps of the body, one by one, where each label leads to one of them.
  have hRead : Forall₂ (MachineStep.IsRead fun _ place => ∃ k ∈ is, (k.offset : Int) = place)
      (b.code.flatMap Instr.steps) is := by
    rw [← Lowering.flatten_steps hParts]
    refine Lowering.locate_isRead (fun j hj => ?_) (by omega)
    obtain ⟨place, hPlace⟩ := Option.isSome_iff_exists.mp (hDefined j hj)
    obtain ⟨before, _, _, _, hRoom⟩ := Lowering.lookup_definedAll hParts hPlace
    have hInside := Lowering.roomAll_take_le before.length parts
    exact ⟨place, hPlace, by omega, by omega, Lowering.label_start hParts hb.returns hPlace disp⟩
  refine ⟨is, hDecode, ?_, fun i hi => ⟨hCover.bounds.2 i hi, ?_⟩⟩
  · obtain ⟨front, hFront⟩ := List.getLast?_eq_some_iff.mp hb.returns
    rw [hFront, flatMap_append, ← forall₂_reverse_iff, reverse_append] at hRead
    obtain ⟨i, rest, hStep, _, hLast⟩ := List.forall₂_cons_left_iff.mp hRead
    rw [List.getLast?_eq_head?_reverse, hLast, List.head?_cons, Option.map_some,
      Opcode.eq_ret_of_name hStep.1]
  · obtain ⟨s, hs, hStep⟩ := exists_of_mem_right hRead hi
    obtain ⟨instr, hInstr, hs⟩ := List.mem_flatMap.mp hs
    exact hStep.inside ((hb.numbered instr hInstr).steps_inside s hs) hFunctions hStates

namespace Routine

variable {visible : List LibraryFunction} {Top : Symbol → Prop} {round : Nat} {r : Routine} {b : Block}
  {s : Symbol}

/-- A function or state that a routine names stands at the top level. -/
theorem Sound.offered {want : SymbolKind} (h : r.Sound Top round b)
    (hUse : .uses want (some s) ∈ Stmt.notesAll b.stmts) (hWant : want = .function ∨ want = .state) :
    s.kind.serves want = true ∧ Top s := by
  obtain ⟨_, hSome, hServes, hFrom⟩ := h.used _ _ hUse
  cases hSome
  refine ⟨hServes, hFrom.resolve_right fun hDeclared => ?_⟩
  obtain ⟨kind, ty, hMem⟩ := mem_declaredIn.mp hDeclared
  obtain ⟨_, hSome, hKind, _⟩ := h.made kind ty _ hMem
  cases hSome
  rcases declares_of_mem_frame hMem with rfl | ⟨rfl, _⟩ <;>
    (rw [hKind] at hServes; rcases hWant with rfl | rfl <;> cases hServes)

/-- The calls and changes of state in the code of a sound routine are numbered as the script numbers its
functions and states. -/
theorem Sound.numbered (h : r.Sound (script.Offers visible round) round b) {e : Surroundings}
    (hPlaced : e.placed.contains round = true) {i : Instr}
    (hGrounded : i.Grounded e (· ∈ Stmt.notesAll b.stmts)) :
    i.Numbered script.functions.length script.states.length := by
  constructor
  · rintro c rfl hOwn
    obtain ⟨s, hUse, hCall⟩ := hGrounded
    obtain ⟨hServes, hTop⟩ := h.offered hUse (Or.inl rfl)
    cases hCall
    cases hTop with
    | function k f hMem =>
      refine ⟨k, (List.getElem?_eq_some_iff.mp hMem).1, ?_⟩
      rw [Surroundings.index, hPlaced, Bool.or_true]
      rfl
    | library f => simp [LibraryFunction.symbol] at hOwn
    | event sym hKind => rw [hKind] at hServes; cases hServes
    | _ => cases hServes
  · rintro k name rfl
    obtain ⟨s, hUse, rfl⟩ := hGrounded
    obtain ⟨hServes, hTop⟩ := h.offered hUse (Or.inr rfl)
    cases hTop with
    | state k t hMem =>
      refine ⟨k, (List.getElem?_eq_some_iff.mp hMem).1, ?_⟩
      rw [Surroundings.index, hPlaced, Bool.or_true]
      rfl
    | event sym hKind => rw [hKind] at hServes; cases hServes
    | _ => cases hServes

/-- The body of a sound routine is bound to the functions and states of the script. -/
theorem Sound.bound_body {outer : Surroundings} {body : Body}
    (h : r.Sound (script.Offers visible round) round b) (hBlock : r.body = some b)
    (hEmits : r.Emits outer body) (hPlaced : outer.placed.contains round = true) :
    body.Bound script.functions.length script.states.length := by
  obtain ⟨sym, l, l', c, _, _, hl, hCode, rfl⟩ := h.emits hBlock hEmits
  have hInner : (outer.enter r.result sym r.params b).placed.contains round = true := hPlaced
  refine ⟨?_, fun i hi => h.numbered hInner (h.grounded hCode _ i hi)⟩
  obtain ⟨_, _, _, hEnds⟩ := (outer.enter r.result sym r.params b).finish_eq
    (.enterFrame (Ty.frameSize ((Stmt.localsAll b.stmts).map (·.ty))) :: c)
  exact hEnds

end Routine

/-- The bodies of an emitted program are bound to its functions and states. -/
theorem Session.emit_bound {library : Library} {privileged : Bool} {s s' : Session}
    (hAnalyze : (start script library privileged).analyze = .ok s) (hEmit : s.emit = .ok (s', some p)) :
    p.Bodies (Body.Bound p.functions.length p.states.length) := by
  have hFailed := (emit_eq_ok hEmit).1
  have hAccepted := analyze_accepted hAnalyze hFailed
  have hPlaced : s.surroundings.placed.contains 1 = true := hAccepted.contains_placed
  obtain ⟨_, q, hSame, hImplements⟩ := @Accepted.emits_all _ _ _ _
      (fun _ => Body.Bound script.functions.length script.states.length) hAccepted <| by
    intro r₀ _ r body hAnalyzed hEmits
    obtain ⟨b₀, b, _, hBlock, _, hSound⟩ := hAnalyzed.body
    exact hSound.bound_body hBlock hEmits hPlaced
  cases hEmit.symm.trans hSame
  obtain ⟨hOutline, _⟩ := analyze_outline hAnalyze hFailed
  obtain ⟨_, hFunctions, hStates⟩ := Script.outline_parts hOutline
  have hFunctionCount := congrArg List.length hFunctions
  have hStateCount := congrArg List.length hStates
  rw [length_map, length_map] at hFunctionCount hStateCount
  rw [← hImplements.functions.length_eq, ← hImplements.states.length_eq, hFunctionCount, hStateCount]
  exact hImplements.bodies

namespace Image

theorem length_le_flatten {es : List Bytes} {e : Bytes} (h : e ∈ es) : e.length ≤ es.flatten.length := by
  obtain ⟨front, rest, rfl⟩ := append_of_mem h
  simp only [flatten_append, flatten_cons, length_append]
  omega

/-- What is written takes room: the rows of the tables, and the code of the bodies. -/
theorem assemble_fits {bytes : Bytes} (hPositive : 0 < memory) (hRange : memory < 2 ^ 31)
    (h : assemble p memory = .ok bytes) :
    p.functions.length < 2 ^ 31 ∧ p.states.length < 2 ^ 31 ∧
      p.Bodies fun b => ∀ c, b.lower = .ok c → c.code.length < 2 ^ 31 := by
  obtain ⟨s, hSections, hUsed, _⟩ := assemble_eq_ok hPositive h
  obtain ⟨_, _, hFunctions, hStates, _⟩ := writeSections_eq_ok hSections
  obtain ⟨hUsedEq, hHrEq, hSrEq, hGfrEq⟩ := s.used_eq
  obtain ⟨fs, hFunctionEntries, hFunctionBytes⟩ := writeFunctions_eq_ok hFunctions
  obtain ⟨ss, hStateEntries, hStateBytes⟩ := writeStates_eq_ok hStates
  have hFunctionRoom := congrArg List.length hFunctionBytes
  have hStateRoom := congrArg List.length hStateBytes
  have hFunctionCount := hFunctionEntries.length_eq
  have hStateCount := hStateEntries.length_eq
  have hWidth : ∀ r : StateCode × Nat, (intWord r.2 ++ word64 r.1.eventMask).length = 12 :=
    fun r => by simp
  simp only [length_append, length_intWord, length_starts, length_rows (fun o : Nat => length_intWord o),
    length_rows hWidth, length_zip] at hFunctionRoom hStateRoom
  refine ⟨by omega, by omega, fun f hf c hLower => ?_, fun st hst k hk c hLower => ?_⟩
  · obtain ⟨e, he, hEntry⟩ := exists_of_mem_left hFunctionEntries hf
    obtain ⟨c', hLower', hBytes⟩ := functionEntry_eq_ok hEntry
    cases hLower.symm.trans hLower'
    have hRoom := length_le_flatten he
    rw [hBytes] at hRoom
    simp only [length_append, length_cons] at hRoom
    omega
  · obtain ⟨e, he, hEntry⟩ := exists_of_mem_left hStateEntries hst
    obtain ⟨codes, _, hCodes, _, hBytes⟩ := stateEntry_eq_ok hEntry
    obtain ⟨code, hCode, c', hLower', rfl⟩ := exists_of_mem_left hCodes hk
    cases hLower.symm.trans hLower'
    have hRoom := length_le_flatten he
    have hInner := length_le_flatten hCode
    rw [hBytes] at hRoom
    simp only [length_append] at hRoom
    omega

end Image

/-- The image of a compiled script whose variables have types of values is read, and the code of each of
its functions and handlers is closed, unless a text in it holds a NUL. -/
theorem compile_closed {o : CompileOptions} {c : Compiled} (h : compile (some script) o = .ok c)
    (hBackend : o.theBackend = .image memory) (hMemory : memory < 2 ^ 31) (hNames : script.NamesEnd)
    (hValues : ∀ v ∈ script.globalVars, v.ty.isValue = true) :
    ∃ img, Image.read c.output = .ok img ∧
      Forall₂ (fun e f => e.Carries f ∧
        (f.body.Plain → ClosedCode img.functions.length img.states.length e.code))
        img.functions c.program.functions ∧
      Forall₂ (fun e s => e.Carries s ∧ Forall₂ (fun k h => k.Carries h ∧
        (h.body.Plain → ClosedCode img.functions.length img.states.length k.code)) e.handlers s.events)
        img.states c.program.states := by
  obtain ⟨_, s, hSome, hAnalyze, hEmit, _⟩ := compile_eq_ok h
  cases hSome
  have hStores := compile_stores h hBackend hMemory hNames
  obtain ⟨hPositive, hRange⟩ := Image.budget_range hMemory
  obtain ⟨hFunctionCount, hStateCount, hSizes⟩ := Image.assemble_fits hPositive hRange hStores.output
  have hBound := Session.emit_bound hAnalyze hEmit
  obtain ⟨img, hRead, hFunctions, hStates⟩ := hStores.read_ok hMemory hValues
  refine ⟨img, hRead, forall₂_imp_right hFunctions fun f hf e he => ⟨he, fun hPlain => ?_⟩,
    forall₂_imp_right hStates fun st hst e he => ⟨he, forall₂_imp_right he.handlers fun k hk d hd =>
      ⟨hd, fun hPlain => ?_⟩⟩⟩
  · obtain ⟨chunk, hLower, hCode⟩ := he.code
    rw [hFunctions.length_eq, hStates.length_eq, hCode]
    exact (hBound.functions f hf).lower_closed hLower hPlain (hSizes.functions f hf chunk hLower)
      hFunctionCount.le hStateCount.le
  · obtain ⟨chunk, hLower, hCode⟩ := hd.code
    rw [hFunctions.length_eq, hStates.length_eq, hCode]
    exact (hBound.handlers st hst k hk).lower_closed hLower hPlain (hSizes.handlers st hst k hk chunk hLower)
      hFunctionCount.le hStateCount.le

/-- A script with a text:

    default {
      state_entry() {
        "…";
      }
    } -/
def Script.saying (text : String) : Script :=
  let entry : Handler :=
    { pos := {}, name := "state_entry", params := []
      body := some { pos := {}, stmts := [.expr {} (.string {} text .void)] } }
  { pos := {}
    globals := []
    states := [some { pos := {}, name := "default", events := [some entry] }] }

/-- A script with a text that holds a NUL. -/
def Script.interrupted : Script := .saying "\x00P"

/-- A compiled script whose code is not closed: the reader of instructions takes the rest of a text for
an instruction, and finds it cut off. -/
theorem compile_unclosed :
    ∃ c img, compile (some .interrupted) { library := some ⟨[]⟩, memory := 160 } = .ok c ∧
      Image.read c.output = .ok img ∧ ∃ st ∈ img.states, ∃ k ∈ st.handlers,
        (Instruction.decodeAll k.code).2 = some (.operand (.pushLocal .integer) 2) ∧
        ¬ ClosedCode img.functions.length img.states.length k.code := by
  have hRun : (match compile (some .interrupted) { library := some ⟨[]⟩, memory := 160 } with
      | .ok c =>
        match Image.read c.output with
        | .ok img => decide (∃ st ∈ img.states, ∃ k ∈ st.handlers,
            (Instruction.decodeAll k.code).2 = some (.operand (.pushLocal .integer) 2))
        | .error _ => false
      | .error _ => false) = true := by decide +kernel
  split at hRun
  · next c hCompile =>
    split at hRun
    · next img hRead =>
      obtain ⟨st, hst, k, hk, hCut⟩ := of_decide_eq_true hRun
      refine ⟨c, img, hCompile, hRead, st, hst, k, hk, hCut, ?_⟩
      rintro ⟨is, hDecode, _⟩
      rw [hDecode] at hCut
      cases hCut
    · cases hRun
  · cases hRun

/-- A script with a text that holds no NUL. -/
theorem compile_closed_saying :
    ∃ c img, compile (some (.saying "P")) { library := some ⟨[]⟩, memory := 160 } = .ok c ∧
      Image.read c.output = .ok img ∧ ∃ s ∈ c.program.states, ∃ h ∈ s.events,
        (∃ i ∈ h.body.code, "P" ∈ i.strings) ∧ ∃ e ∈ img.states, ∃ k ∈ e.handlers,
          k.Carries h ∧
          ClosedCode img.functions.length img.states.length k.code := by
  have hRun : (match compile (some (.saying "P")) { library := some ⟨[]⟩, memory := 160 } with
      | .ok c => decide (∃ s ∈ c.program.states, ∃ h ∈ s.events,
        (∃ i ∈ h.body.code, "P" ∈ i.strings) ∧
          ∀ i ∈ h.body.code, ∀ s ∈ i.strings, 0 ∉ Text.bytes s)
      | .error _ => false) = true := by decide +kernel
  split at hRun
  · next c hCompile =>
    obtain ⟨s, hs, h, hh, hText, hPlain⟩ := of_decide_eq_true hRun
    obtain ⟨img, hRead, _, hStates⟩ := compile_closed hCompile rfl (by decide)
      ⟨by decide, by decide, by simp +decide [Script.saying]⟩ (by decide)
    obtain ⟨e, he, _, hHandlers⟩ := exists_of_mem_right hStates hs
    obtain ⟨k, hk, hCarries, hClosed⟩ := exists_of_mem_right hHandlers hh
    exact ⟨c, img, hCompile, hRead, s, hs, h, hh, hText, e, he, k, hk, hCarries, hClosed hPlain⟩
  · cases hRun

end Lsl
