import Lsl.Proofs.GlobalPlaces
import Lsl.Proofs.ImageRoundTrip
import Lsl.Proofs.JumpTargets
import Lsl.Proofs.LibraryTables
import Lsl.Proofs.LoweredCode
import Lsl.Proofs.StackDiscipline

/-! Programs that can be written. The code of an accepted script names only variables that have a
place, labels that stand in the same body, operators of the machine and functions of the library with
a valid number, so that neither the assembly text nor the image can be refused. -/
namespace Lsl

open List

variable {code : List Instr} {Known : Note → Prop} {p : Program} {fs : List LibraryFunction}

variable {l : Label} {o : Opcode} {types : UInt8} {i : Instr} {items : List CodeItem} {e : Surroundings}
  {globals : List GlobalData}

namespace Lowering

mutual

theorem jump_not_mem_constant :
    ∀ v : Value, .jump o types l ∉ constant v
  | .list vs => by simp [constant, withInt, jump_not_mem_constants vs]
  | .integer _ | .float _ | .string _ | .key _ | .vector .. | .rotation .. | .void | .unknown _ => by
    simp [constant, withTypes, bare]

theorem jump_not_mem_constants :
    ∀ vs : List Value, .jump o types l ∉ constants vs
  | [] => by simp [constants]
  | v :: vs => by simp [constants, jump_not_mem_constant v, jump_not_mem_constants vs]

end

/-- An instruction becomes jumps to its own target only. -/
theorem target_of_mem_expand (h : expand i = .ok items) (hMem : .jump o types l ∈ items) :
    i.target? = some l := by
  cases i with
  | jump n | jumpIf t n | jumpNot t n =>
    cases h
    simp only [mem_singleton, CodeItem.jump.injEq] at hMem
    rw [hMem.2.2]
    rfl
  | pushConst v =>
    cases h
    exact absurd hMem (jump_not_mem_constant v)
  | pushLocal | pushGlobal | store =>
    obtain ⟨_, _, h⟩ := bind_eq_ok.mp h
    cases h
    simp at hMem
  | unary | binary =>
    simp only [expand] at h
    split at h
    · split at h
      · cases h
        simp [withTypes] at hMem
      · cases h
    · cases h
  | call c =>
    simp only [expand] at h
    split at h
    · cases h
      simp [enterCallee, withInt, withTypes, bare] at hMem
    · split at h
      · cases h
      · split at h <;> cases h <;> simp [enterCallee, withInt, withTypes, bare] at hMem
  | callBegin t =>
    cases h
    split at hMem <;> simp [bare] at hMem
  | enterFrame n =>
    cases h
    split at hMem <;> simp [withInt] at hMem
  | unknown n => cases h
  | _ =>
    cases h
    simp [bare, withInt, withTypes] at hMem

theorem target_of_mem_expandFrom {place : Nat} (h : expandFrom place code = .ok items)
    (hMem : .jump o types l ∈ items) : l ∈ targetsOf code := by
  induction code generalizing place items with
  | nil =>
    cases h
    cases hMem
  | cons i is ih =>
    rw [expandFrom] at h
    split at h
    · cases h
    · rename_i part hPart
      obtain ⟨rest, hRest, rfl⟩ := map_eq_ok.mp h
      rw [targetsOf, mem_filterMap]
      rcases List.mem_append.mp hMem with hMem | hMem
      · exact ⟨i, by simp, target_of_mem_expand hPart hMem⟩
      · obtain ⟨j, hj, hTarget⟩ := List.mem_filterMap.mp (ih hRest hMem)
        exact ⟨j, by simp [hj], hTarget⟩

theorem expandFrom_succeeds (h : ∀ i ∈ code, ∃ items, expand i = .ok items) (place : Nat) :
    ∃ items, expandFrom place code = .ok items := by
  induction code generalizing place with
  | nil => exact ⟨[], rfl⟩
  | cons i is ih =>
    obtain ⟨part, hPart⟩ := h i (by simp)
    obtain ⟨rest, hRest⟩ := ih (fun j hj => h j (by simp [hj])) (place + 1)
    rw [expandFrom, hPart, hRest]
    exact ⟨_, rfl⟩

theorem mem_waitingAll {start : Nat} {j : PendingJump} (h : j ∈ CodeItem.waitingAll start items) :
    ∃ o types, .jump o types j.label ∈ items := by
  induction items generalizing start with
  | nil => cases h
  | cons i is ih =>
    rw [CodeItem.waitingAll, mem_append] at h
    rcases h with h | h
    · cases i with
      | jump o types l =>
        obtain rfl := List.mem_singleton.mp h
        exact ⟨o, types, by simp⟩
      | op | label => cases h
    · obtain ⟨o, types, hMem⟩ := ih h
      exact ⟨o, types, mem_cons_of_mem _ hMem⟩

end Lowering

/-- Jumps are patched where their labels have places. -/
theorem Chunk.resolve_succeeds {labels : List (Label × Int)} {js : List PendingJump} (code : Bytes)
    (h : ∀ j ∈ js, labels.lookup j.label ≠ none) : (resolve labels js code).2 = none := by
  induction js generalizing code with
  | nil => rfl
  | cons j js ih =>
    obtain ⟨goal, hGoal⟩ := Option.ne_none_iff_exists'.mp (h j (by simp))
    rw [resolve, hGoal]
    exact ih _ fun k hk => h k (by simp [hk])

/-- A body has machine code if each of its instructions has, and its jumps go to its own labels. -/
theorem Body.lower_succeeds {b : Body} (hExpand : ∀ i ∈ b.code, ∃ items, Lowering.expand i = .ok items)
    (hTargets : ∀ n ∈ targetsOf b.code, n ∈ labelsOf b.code) : ∃ c, b.lower = .ok c := by
  obtain ⟨items, hItems⟩ := Lowering.expandFrom_succeeds hExpand 0
  have hDefined : ∀ j ∈ CodeItem.waitingAll 0 items,
      (CodeItem.definedAll 0 items).reverse.lookup j.label ≠ none := by
    intro j hj hNone
    obtain ⟨o, types, hJump⟩ := Lowering.mem_waitingAll hj
    obtain ⟨parts, hParts, rfl⟩ := Lowering.expandFrom_eq_ok hItems
    rw [Lowering.lookup_definedAll_eq_none, Lowering.mem_label_iff hParts] at hNone
    have hLabel := hTargets _ (Lowering.target_of_mem_expandFrom hItems hJump)
    obtain ⟨i, hi, hSame⟩ := List.mem_filterMap.mp hLabel
    cases i with
    | label n =>
      cases hSame
      exact hNone hi
    | _ => cases hSame
  have hConnect : (items.foldl Lowering.place {}).connect.2 = none := by
    have hNone := Chunk.resolve_succeeds
      (Instruction.encodeAll (CodeItem.machineAll (fun _ _ => 0) 0 items)) hDefined
    rw [Chunk.foldl_place]
    simp only [Chunk.connect, Chunk.size, length_nil, nil_append, append_nil]
    split
    · rfl
    · rename_i hResolve
      rw [hResolve] at hNone
      cases hNone
  simp only [lower, hItems, ok_bind]
  split
  · exact ⟨_, rfl⟩
  · rename_i hResolve
    rw [hResolve] at hConnect
    cases hConnect

/-- Instructions that refer to known symbols have machine code. -/
theorem Instr.Grounded.expands (h : i.Grounded e Known)
    (hLibrary : ∀ s, Known (.uses .function (some s)) → s.kind = .library → s.index ≤ 0xffff) :
    ∃ items, Lowering.expand i = .ok items := by
  have hMember : ∀ {o : Int32} {m : String}, IsMember m → ∃ o', Lowering.memberOffset o m = .ok o' := by
    rintro o m (rfl | hSome)
    · exact ⟨o, rfl⟩
    · obtain ⟨k, hk⟩ := Option.isSome_iff_exists.mp hSome
      unfold Lowering.memberOffset
      split
      · exact ⟨o, rfl⟩
      · simp [componentOffset?, hk]
  have hPlaced : ∀ {o : Int32} {m : String} {f : Int32 → List CodeItem}, IsMember m →
      ∃ items, (do return f (← Lowering.memberOffset o m)) = Except.ok items := by
    intro o m f hm
    obtain ⟨o', ho⟩ := @hMember o m hm
    rw [ho]
    exact ⟨_, rfl⟩
  cases i with
  | pushLocal t o m | pushGlobal t o m =>
    obtain ⟨_, _, _, _, hm⟩ := h
    exact hPlaced hm
  | store g t o m k =>
    obtain ⟨_, _, _, _, hm⟩ | ⟨_, _, _, _, rfl⟩ := h
    · exact hPlaced hm
    · exact hPlaced (Or.inl rfl)
  | unary op t =>
    have hUnary : op.isUnary = true := h
    cases op <;> first | exact ⟨_, rfl⟩ | cases hUnary
  | binary op l r =>
    have hBinary : op.isBinary = true := h
    cases op <;> first | exact ⟨_, rfl⟩ | cases hBinary
  | call c =>
    obtain ⟨s, hUse, hCall⟩ := h
    simp only [Expr.callInstr, Instr.call.injEq] at hCall
    subst hCall
    simp only [Lowering.expand]
    by_cases hKind : s.kind = .library
    · have hIndex : e.index s = s.index := by simp [Surroundings.index, hKind]
      have hRange := hLibrary s hUse hKind
      simp only [hKind, beq_self_eq_true, Bool.not_true, Bool.false_eq_true, if_false, hIndex]
      rw [if_neg (by omega)]
      split <;> exact ⟨_, rfl⟩
    · simp [beq_false_of_ne hKind]
  | unknown n => exact h.elim
  | _ => exact ⟨_, rfl⟩

theorem length_globalOffsets (start : Nat) (vs : List GlobalVar) :
    (globalOffsets start vs).length = vs.length := by
  induction vs generalizing start with
  | nil => rfl
  | cons v vs ih => simp [globalOffsets, ih]

theorem Ty.frameSize_append (ts us : List Ty) : frameSize (ts ++ us) = frameSize ts + frameSize us := by
  induction ts with
  | nil => simp [frameSize]
  | cons t ts ih => simp [frameSize, ih, Nat.add_assoc]

namespace Assembly

/-- A slot of the list is found at its offset, unless another one is before. -/
theorem findSlot_isSome {ts : List Ty} {i : Nat} (h : i < ts.length) (start place : Nat) :
    (findSlot (Int32.ofNat (start + slotOffset ts i)) start place ts).isSome = true := by
  induction ts generalizing i start place with
  | nil => cases h
  | cons t ts ih =>
    rw [findSlot]
    split
    · rfl
    · cases i with
      | zero =>
        rename_i hOther
        exact absurd rfl hOther
      | succ i =>
        have hNext : start + slotOffset (t :: ts) (i + 1) = start + t.size + slotOffset ts i := by
          simp [slotOffset, Ty.frameSize, Nat.add_assoc]
        rw [hNext]
        exact ih (Nat.lt_of_succ_lt_succ h) (start + t.size) (place + 1)

/-- The offset of a parameter, and that of a variable behind the parameters. -/
theorem slotOffset_append (ts us : List Ty) (i : Nat) :
    (i < ts.length → slotOffset (ts ++ us) i = 0 + slotOffset ts i) ∧
      (¬ i < ts.length → slotOffset (ts ++ us) i = Ty.frameSize ts + slotOffset us (i - ts.length)) := by
  constructor
  · intro h
    simp [slotOffset, take_append_of_le_length (Nat.le_of_lt h)]
  · intro h
    simp [slotOffset, take_append, Ty.frameSize_append, take_of_length_le (Nat.le_of_not_lt h)]

/-- Each variable of a frame is found at its offset. -/
theorem frameSlot_succeeds {b : Body} {i : Nat} (h : i < (b.paramTypes ++ b.localTypes).length)
    (isHandler : Bool) :
    ∃ r, frameSlot isHandler b (Int32.ofNat (slotOffset (b.paramTypes ++ b.localTypes) i)) = .ok r := by
  rw [length_append] at h
  by_cases hParam : i < b.paramTypes.length
  · obtain ⟨r, hr⟩ := Option.isSome_iff_exists.mp (findSlot_isSome hParam 0 0)
    rw [frameSlot, (slotOffset_append ..).1 hParam, hr]
    exact ⟨_, rfl⟩
  · obtain ⟨r, hr⟩ := Option.isSome_iff_exists.mp (@findSlot_isSome b.localTypes
      (i - b.paramTypes.length) (by omega) b.paramBytes 0)
    rw [frameSlot, (slotOffset_append ..).2 hParam]
    split
    · exact ⟨_, rfl⟩
    · rw [← Body.paramBytes, hr]
      exact ⟨_, rfl⟩

theorem staticField_succeeds {gs : List GlobalData} {g : GlobalData} (hg : g ∈ gs) {offset : Int32}
    (hOffset : Int32.ofInt g.offset = offset) : ∃ r, staticField gs offset = .ok r := by
  rw [staticField]
  split
  · exact ⟨_, rfl⟩
  · rename_i hNone
    have hOther := List.find?_eq_none.mp hNone g hg
    exact absurd (by simpa using hOffset) hOther

end Assembly

/-- Instructions that refer to variables with a place have lines. -/
theorem Instr.Grounded.lines {f : Assembly.Frame} (h : i.Grounded e Known)
    (hUsed : ∀ s, Known (.uses .local (some s)) → ∃ p, f.place (s.kind == .global) (e.offset s) = .ok p)
    (hDeclared : ∀ t s, Known (.declares .local t (some s)) → ∃ p, f.place false (e.offset s) = .ok p) :
    ∃ text, f.lines i = .ok text := by
  have hPush : ∀ {g o m}, (∃ p, f.place g o = .ok p) → ∃ text, f.push g o m = .ok text := by
    rintro g o m ⟨p, hp⟩
    rw [Assembly.Frame.push, hp]
    exact ⟨_, rfl⟩
  have hStore : ∀ {g o m k}, (∃ p, f.place g o = .ok p) → ∃ text, f.store g o m k = .ok text := by
    rintro g o m k ⟨p, hp⟩
    rw [Assembly.Frame.store, hp]
    exact ⟨_, rfl⟩
  cases i with
  | pushLocal t o m =>
    obtain ⟨s, hUse, hKind, rfl, _⟩ := h
    have hPlace := hUsed s hUse
    rw [beq_false_of_ne hKind] at hPlace
    exact hPush hPlace
  | pushGlobal t o m =>
    obtain ⟨s, hUse, hKind, rfl, _⟩ := h
    have hPlace := hUsed s hUse
    rw [hKind] at hPlace
    exact hPush hPlace
  | store g t o m k =>
    obtain ⟨s, hUse, hKind, rfl, _⟩ | ⟨s, hUse, rfl, rfl, _⟩ := h
    · have hSame : g = (s.kind == .global) := by
        rw [Bool.eq_iff_iff, hKind, beq_iff_eq]
      exact hStore (hSame ▸ hUsed s hUse)
    · exact hStore (hDeclared t s hUse)
  | unknown n => exact h.elim
  | _ => exact ⟨_, rfl⟩

/-- A body that both outputs can write, in a program with the given globals. -/
structure Body.Writable (globals : List GlobalData) (b : Body) : Prop where
  expands : ∀ i ∈ b.code, ∃ items, Lowering.expand i = .ok items
  targets : ∀ n ∈ targetsOf b.code, n ∈ labelsOf b.code
  lines : ∀ isHandler, ∀ i ∈ b.code, ∃ text, Assembly.Frame.lines ⟨globals, isHandler, b⟩ i =
    .ok text

theorem Surroundings.targetsOf_finish (e : Surroundings) (frame : Int) (c : List Instr) :
    targetsOf (e.finish (.enterFrame frame :: c)) = targetsOf c := by
  obtain ⟨tail, hTail, hFinish, _⟩ := e.finish_eq (.enterFrame frame :: c)
  rw [hFinish, targetsOf_append]
  rcases hTail with rfl | rfl <;> exact append_nil _

namespace Routine

variable {visible : List LibraryFunction} {script : Script} {round : Nat} {r : Routine} {b : Block}
  {s : Symbol}

/-- A variable that a routine uses is a global of the script or stands in its frame. -/
theorem Sound.variable (h : r.Sound (script.Offers visible round) round b)
    (hUse : .uses .local (some s) ∈ Stmt.notesAll b.stmts) :
    s.round = round ∧ (s.kind = .global ∧ s.index < script.globalVars.length ∨
      s.kind ≠ .global ∧ s.index < (frameTypes r.params b).length) := by
  obtain ⟨_, hSome, hServes, hFrom⟩ := h.used _ _ hUse
  cases hSome
  rcases hFrom with hTop | hDeclared
  · cases hTop with
    | globalVar i v hMem =>
      exact ⟨rfl, Or.inl ⟨rfl, (List.getElem?_eq_some_iff.mp hMem).1⟩⟩
    | event sym hKind => rw [hKind] at hServes; cases hServes
    | _ => cases hServes
  · obtain ⟨kind, ty, hMem⟩ := mem_declaredIn.mp hDeclared
    obtain ⟨_, hSome, hKind, _, hRound⟩ := h.made kind ty _ hMem
    cases hSome
    refine ⟨hRound, Or.inr ?_⟩
    rcases declares_of_mem_frame hMem with rfl | ⟨rfl, _⟩
    · rw [hKind] at hServes
      cases hServes
    · exact ⟨by simp [hKind], (List.getElem?_eq_some_iff.mp (h.ordered.placed hMem)).1⟩

theorem Sound.declared {ty : Ty} (h : r.Sound (script.Offers visible round) round b)
    (hMem : .declares .local ty (some s) ∈ Stmt.notesAll b.stmts) :
    s.round = round ∧ s.kind ≠ .global ∧ s.index < (frameTypes r.params b).length := by
  obtain ⟨_, hSome, hKind, _, hRound⟩ := h.made _ _ _ (mem_append_right _ hMem)
  cases hSome
  exact ⟨hRound, by simp [hKind],
    (List.getElem?_eq_some_iff.mp (h.ordered.placed (mem_append_right _ hMem))).1⟩

/-- A library function that a routine calls is one of those that are visible. -/
theorem Sound.callee (h : r.Sound (script.Offers visible round) round b)
    (hUse : .uses .function (some s) ∈ Stmt.notesAll b.stmts) (hKind : s.kind = .library) :
    ∃ f ∈ visible, s = f.symbol := by
  obtain ⟨_, hSome, _, hFrom⟩ := h.used _ _ hUse
  cases hSome
  rcases hFrom with hTop | hDeclared
  · cases hTop with
    | library f hMem => exact ⟨f, hMem, rfl⟩
    | event sym hEvent => rw [hEvent] at hKind; cases hKind
    | _ => cases hKind
  · obtain ⟨kind, ty, hMem⟩ := mem_declaredIn.mp hDeclared
    obtain ⟨_, hSome, hMade, _⟩ := h.made kind ty _ hMem
    cases hSome
    rcases declares_of_mem_frame hMem with rfl | ⟨rfl, _⟩ <;> (rw [hKind] at hMade; cases hMade)

/-- The code of a sound routine jumps to its own labels. -/
theorem Sound.closes {Top : Symbol → Prop} (h : r.Sound Top round b)
    (hTop : ∀ s, Top s → s.kind ≠ .label)
    {l l' : Labels} {c : List Instr} (hl : l.Valid) (hCode : Stmt.codeAll e b.stmts l = .ok (c, l'))
    (frame : Int) :
    ∀ n ∈ targetsOf (e.finish (.enterFrame frame :: c)),
      n ∈ labelsOf (e.finish (.enterFrame frame :: c)) := by
  have hCloses := Stmt.codeAll_closes hl hCode (Labels.Grows.refl _)
  rw [e.targetsOf_finish, e.labelsOf_finish]
  exact hCloses.targets fun s hs => h.bound hTop s (mem_jumpsIn hs)

/-- The body of a sound routine can be written, where the globals of the program stand at the places
that the code uses. -/
theorem Sound.writable {outer : Surroundings} {body : Body}
    (h : r.Sound (script.Offers visible round) round b) (hBlock : r.body = some b)
    (hEmits : r.Emits outer body) (hPlaced : outer.placed.contains round = true)
    (hOffsets : globals.map (·.offset) = outer.globals.map Int.ofNat)
    (hCount : outer.globals.length = script.globalVars.length)
      (hLibrary : ∀ f ∈ visible, f.index ≤ 0xffff) :
    body.Writable globals := by
  obtain ⟨sym, l, l', c, _, _, hl, hCode, rfl⟩ := h.emits hBlock hEmits
  have hGrounded := h.grounded hCode (Ty.frameSize ((Stmt.localsAll b.stmts).map (·.ty)))
  have hOffset : ∀ {s : Symbol}, s.round = round → (outer.enter r.result sym r.params b).offset s =
      if s.kind = .global then Int32.ofNat (outer.globals.getD s.index 0)
      else Int32.ofNat (slotOffset (frameTypes r.params b) s.index) := by
    intro s hRound
    have hHere : (outer.enter r.result sym r.params b).placed.contains s.round = true := hRound ▸ hPlaced
    rw [Surroundings.offset, hHere]
    rfl
  have hFrame : ∀ {s : Symbol} {isHandler : Bool} {code : List Instr}, s.round = round →
      s.kind ≠ .global → s.index < (frameTypes r.params b).length →
      ∃ p, Assembly.Frame.place ⟨globals, isHandler, ⟨r.result, paramSlots r.params,
        Stmt.localsAll b.stmts, code⟩⟩ false ((outer.enter r.result sym r.params b).offset s) = .ok p :=
          by
    intro s isHandler code hRound hKind hIndex
    rw [hOffset hRound, if_neg hKind]
    have hTypes : frameTypes r.params b =
        (Body.mk r.result (paramSlots r.params) (Stmt.localsAll b.stmts) code).paramTypes ++
          (Body.mk r.result (paramSlots r.params) (Stmt.localsAll b.stmts) code).localTypes := by
      simp [frameTypes, Body.paramTypes, Body.localTypes, paramSlots, paramTypes]
    rw [hTypes] at hIndex ⊢
    exact Assembly.frameSlot_succeeds hIndex isHandler
  refine ⟨fun i hi => (hGrounded i hi).expands ?_, h.closes (fun _ hTop => hTop.kind_ne_label) hl hCode _,
    fun isHandler i hi => (hGrounded i hi).lines ?_ ?_⟩
  · intro s hUse hKind
    obtain ⟨f, hf, rfl⟩ := h.callee hUse hKind
    have hRange := hLibrary f hf
    change f.index.toNat ≤ 0xffff
    omega
  · intro s hUse
    obtain ⟨hRound, ⟨hKind, hIndex⟩ | ⟨hKind, hIndex⟩⟩ := h.variable hUse
    · rw [hOffset hRound, if_pos hKind, hKind]
      rw [← hCount] at hIndex
      have hMem : Int.ofNat outer.globals[s.index] ∈ globals.map (·.offset) :=
        hOffsets ▸ mem_map_of_mem (getElem_mem hIndex)
      obtain ⟨g, hg, hSame⟩ := List.mem_map.mp hMem
      refine Assembly.staticField_succeeds hg ?_
      rw [hSame, getD_eq_getElem?_getD, List.getElem?_eq_getElem hIndex]
      exact Int32.ofInt_eq_ofNat
    · rw [beq_false_of_ne hKind]
      exact hFrame hRound hKind hIndex
  · intro t s hMem
    obtain ⟨hRound, hKind, hIndex⟩ := h.declared hMem
    exact hFrame hRound hKind hIndex

end Routine

/-- A program that both outputs can write. -/
structure Program.Writable (p : Program) : Prop where
  globals : GlobalData.Placed 0 p.globals
  values : ∀ g ∈ p.globals, g.Typed ∧ g.value.Storable
  functions : ∀ f ∈ p.functions, f.body.Writable p.globals
  handlers : ∀ s ∈ p.states, ∀ h ∈ s.events, h.body.Writable p.globals

theorem Body.Writable.method {b : Body} (h : b.Writable globals) (kind name : String) (isHandler : Bool) :
    ∃ text, Assembly.method kind name ⟨globals, isHandler, b⟩ = .ok text :=
  bind_succeeds (mapM_succeeds (h.lines isHandler)) fun _ => ⟨_, rfl⟩

theorem Body.Writable.lower {b : Body} (h : b.Writable globals) :
    ∃ c, b.lower = .ok c := Body.lower_succeeds h.expands h.targets

namespace Program.Writable

/-- A writable program has a text. -/
theorem generates (h : p.Writable) : ∃ text, Assembly.generate p = .ok text := by
  refine bind_succeeds (mapM_succeeds fun f hf => ?_) fun _ =>
    bind_succeeds (mapM_succeeds fun s hs => mapM_succeeds fun k hk => ?_) fun _ => ⟨_, rfl⟩
  · obtain ⟨text, hText⟩ := (h.functions f hf).method "static" ("g" ++ f.name) false
    rw [Assembly.functionMethod, hText]
    exact ⟨_, rfl⟩
  · obtain ⟨text, hText⟩ := (h.handlers s hs k hk).method "instance" s!"e{s.name}{k.kind.name}" true
    rw [Assembly.handlerMethod, hText]
    exact ⟨_, rfl⟩

theorem writeFunctions (h : p.Writable) : ∃ bytes, Image.writeFunctions p.functions = .ok bytes := by
  refine bind_succeeds (mapM_succeeds fun f hf => ?_) fun _ => ⟨_, rfl⟩
  obtain ⟨c, hc⟩ := (h.functions f hf).lower
  rw [Image.functionEntry, hc]
  exact ⟨_, rfl⟩

theorem writeStates (h : p.Writable) : ∃ bytes, Image.writeStates p.states = .ok bytes := by
  refine bind_succeeds (mapM_succeeds fun s hs => bind_succeeds (mapM_succeeds fun k hk => ?_)
    fun _ => ⟨_, rfl⟩) fun _ => ⟨_, rfl⟩
  obtain ⟨c, hc⟩ := (h.handlers s hs k hk).lower
  rw [hc]
  exact ⟨_, rfl⟩

/-- A writable program has an image, unless the memory is too small for it. -/
theorem assembles (h : p.Writable) (memory : Int) :
    (∃ bytes, Image.assemble p memory = .ok bytes) ∨ ∃ used : Nat, Image.budget memory < used ∧
      Image.assemble p memory = .error (.outOfMemory used (Image.budget memory)) := by
  obtain ⟨⟨globals, heap⟩, hGlobals⟩ := Image.writeGlobals_succeeds h.globals h.values
  obtain ⟨functions, hFunctions⟩ := h.writeFunctions
  obtain ⟨states, hStates⟩ := h.writeStates
  have hSections : Image.writeSections p = .ok ⟨globals, functions, states, heap.encode⟩ := by
    simp only [Image.writeSections, hGlobals, hFunctions, hStates, ok_bind, pure_ok]
  rw [Image.assemble, hSections, ok_bind]
  split
  · rename_i hSmall
    exact Or.inr ⟨_, hSmall, rfl⟩
  · exact Or.inl ⟨_, rfl⟩

end Program.Writable

namespace Session

variable {script : Script} {library : Library} {privileged : Bool} {s : Session}

theorem emit_globals {s' : Session} (h : s.emit = .ok (s', some p)) :
    Script.emitGlobals s.surroundings s.script.globalVars = .ok p.globals := by
  obtain ⟨_, _, hEmit, _⟩ := emit_eq_ok h
  obtain ⟨globals, functions, states, l₁, hGlobals, _, _, rfl⟩ := Script.emit_eq.mp hEmit
  exact hGlobals

/-- The program of a script without errors can be written, if its global variables have types of values
and its library was built by adding functions. -/
theorem emit_writable (hLibrary : Library.addAll {} fs = .ok library)
    (hValues : ∀ v ∈ script.globalVars, v.ty.isValue = true)
    (hAnalyze : (start script library privileged).analyze = .ok s) (hFailed : s.failed = false) :
    ∃ s' p, s.emit = .ok (s', some p) ∧ p.Writable := by
  have hAccepted := analyze_accepted hAnalyze hFailed
  obtain ⟨hSettled, hCount⟩ := analyze_globals hAnalyze hFailed hValues
  have hPlaced : s.surroundings.placed.contains 1 = true := hAccepted.contains_placed
  have hLength : s.surroundings.globals.length = script.globalVars.length :=
    (length_globalOffsets 0 s.script.globalVars).trans hCount
  obtain ⟨globals, hGlobals⟩ := @Script.emitGlobals_succeeds s.surroundings _
    (Script.requireEntries_eq_ok hAccepted.required).1
  obtain ⟨hLaid, hOffsets, hTyped⟩ := Script.emitGlobals_placed hSettled hPlaced rfl hGlobals
  obtain ⟨s', p, hEmit, hImplements⟩ := @Accepted.emits_all _ _ _ _ (fun _ body => body.Writable globals)
      hAccepted <| by
    intro r₀ _ r body hAnalyzed hEmits
    obtain ⟨b₀, b, _, hBlock, _, hSound⟩ := hAnalyzed.body
    refine hSound.writable hBlock hEmits hPlaced hOffsets hLength fun f hf => ?_
    exact ((Library.proper_empty.addAll hLibrary).range f (List.mem_filter.mp hf).1).2
  cases (emit_globals hEmit).symm.trans hGlobals
  exact ⟨s', p, hEmit, hLaid, hTyped, hImplements.bodies.functions, hImplements.bodies.handlers⟩

/-- No output refuses the program of a script without errors whose global variables have types of
values: it has assembly text, and in each memory an image unless the memory is too small. -/
theorem emit_written (hLibrary : Library.addAll {} fs = .ok library)
    (hValues : ∀ v ∈ script.globalVars, v.ty.isValue = true)
    (hAnalyze : (start script library privileged).analyze = .ok s) (hFailed : s.failed = false) :
    ∃ s' p, s.emit = .ok (s', some p) ∧ (∃ text, Assembly.generate p = .ok text) ∧
      ∀ memory, (∃ bytes, Image.assemble p memory = .ok bytes) ∨
        ∃ used : Nat, Image.budget memory < used ∧
          Image.assemble p memory = .error (.outOfMemory used (Image.budget memory)) := by
  obtain ⟨s', p, hEmit, hWritable⟩ := emit_writable hLibrary hValues hAnalyze hFailed
  exact ⟨s', p, hEmit, hWritable.generates, hWritable.assembles⟩

/-- The script of the example beside a library of one function. -/
theorem emit_written_sample :
    ∃ s, Library.addAll {} [⟨"llSay", .void, [.integer, .string], false, 23⟩] =
        .ok ⟨[⟨"llSay", .void, [.integer, .string], false, 23⟩]⟩ ∧
      (∀ v ∈ Script.sample.globalVars, v.ty.isValue = true) ∧
      (start .sample ⟨[⟨"llSay", .void, [.integer, .string], false, 23⟩]⟩ false).analyze = .ok s ∧
      s.failed = false ∧ ∃ s' p, s.emit = .ok (s', some p) ∧
        (∃ text, Assembly.generate p = .ok text) ∧
        ∀ memory, (∃ bytes, Image.assemble p memory = .ok bytes) ∨
          ∃ used : Nat, Image.budget memory < used ∧
            Image.assemble p memory = .error (.outOfMemory used (Image.budget memory)) := by
  have hLibrary : Library.addAll {} [⟨"llSay", .void, [.integer, .string], false, 23⟩] =
      .ok ⟨[⟨"llSay", .void, [.integer, .string], false, 23⟩]⟩ := rfl
  have hValues : ∀ v ∈ Script.sample.globalVars, v.ty.isValue = true := by decide
  obtain ⟨s, hAnalyze, hFailed⟩ :=
    @analyze_of_toOption (start .sample ⟨[⟨"llSay", .void, [.integer, .string], false, 23⟩]⟩ false)
      (by decide +kernel)
  exact ⟨s, hLibrary, hValues, hAnalyze, hFailed, emit_written hLibrary hValues hAnalyze hFailed⟩

end Session
end Lsl
