import Lsl.Machine.Lowering
import Lsl.Proofs.Decoding
import Lsl.Proofs.Outcomes

/-! The machine instructions that an instruction of a body stands for, by their mnemonics. This is the
frame convention of the machine:

    call:    [PUSHE] PUSHBP <arguments> PUSHSP PUSHARGI n ADD integer,integer POPBP CALL i
    entry:   PUSHARGE <local bytes>
    return:  LOADP -(4 + size) <pops> RETURN
    state:   <pops> STATE i RETURN

Expansion is shown to follow it, with operands that the reader of instructions takes back. -/
namespace Lsl

open List

variable {l : Label} {m : String} {o : Opcode} {x : Operand} {i : Instr}

/-- A machine instruction by its mnemonic. A branch is given by the label it goes to. -/
inductive MachineStep where
  | op (name : String) (operand : Operand)
  | branch (name : String) (types : Option UInt8) (l : Label)

namespace MachineStep

def bare (name : String) : MachineStep := op name .none

/-- A step with a whole number, of which the lowest 32 bits count. -/
def withInt (name : String) (n : Int) : MachineStep := op name (.int (Int32.ofInt n))

/-- A step with two type tags, of which the lowest four bits count. -/
def withTypes (name : String) (l r : Ty) : MachineStep := op name (.types (Ty.pair l r))

end MachineStep

/-- What distinguishes the mnemonics of a family by the type they work on. -/
def Ty.mark : Ty → String
  | string | key => "S"
  | list => "L"
  | vector => "V"
  | rotation => "Q"
  | void | integer | float | unknown _ => ""

def Operator.mnemonic : Operator → String
  | add => "ADD"
  | sub => "SUB"
  | mul => "MUL"
  | div => "DIV"
  | mod => "MOD"
  | eq => "EQ"
  | neq => "NEQ"
  | leq => "LEQ"
  | geq => "GEQ"
  | less => "LESS"
  | greater => "GREATER"
  | bitAnd => "BITAND"
  | bitOr => "BITOR"
  | bitXor => "BITXOR"
  | boolAnd => "BOOLAND"
  | boolOr => "BOOLOR"
  | shl => "SHL"
  | shr => "SHR"
  | neg => "NEG"
  | bitNot => "BITNOT"
  | boolNot => "BOOLNOT"
  | none | unknown _ => ""

/-- The way from the start of a vector or rotation to a component. -/
def componentShift : String → Int32
  | "y" => 4
  | "z" => 8
  | "s" => 12
  | _ => 0

namespace Value

mutual

def strings : Value → List String
  | string s | key s => [s]
  | list vs => stringsAll vs
  | void | integer _ | float _ | vector .. | rotation .. | unknown _ => []

def stringsAll : List Value → List String
  | [] => []
  | v :: vs => strings v ++ stringsAll vs

end

open MachineStep

mutual

/-- The steps that push a constant: a key is a cast text, and a list is pushed element by element
before its elements are collapsed. -/
def steps : Value → List MachineStep
  | integer n => [op "PUSHARGI" (.int n)]
  | float x => [op "PUSHARGF" (.float x)]
  | string s => [op "PUSHARGS" (.string (Text.bytes s))]
  | key s => [op "PUSHARGS" (.string (Text.bytes s)), withTypes "CAST" .string .key]
  | vector x y z => [op "PUSHARGV" (.floats [x, y, z])]
  | rotation x y z s => [op "PUSHARGQ" (.floats [x, y, z, s])]
  | list vs => stepsAll vs ++ [withInt "STACKTOL" vs.length]
  | void | unknown _ => [bare "PUSHE"]

def stepsAll : List Value → List MachineStep
  | [] => []
  | v :: vs => steps v ++ stepsAll vs

end

end Value

namespace Instr

open MachineStep

def strings : Instr → List String
  | pushConst v => v.strings
  | _ => []

def zeroName : Ty → String
  | .vector => "PUSHEV"
  | .rotation => "PUSHEQ"
  | _ => "PUSHE"

/-- The mnemonic of a store. One that leaves the value on the stack is a store proper, the other a
load into memory. -/
def storeName (isGlobal : Bool) (t : Ty) (keep : Bool) : String :=
  let place := if isGlobal then "G" else ""
  if keep then "STORE" ++ place ++ t.mark else "LOAD" ++ place ++ t.mark ++ "P"

/-- The step that enters a callee: a library function has an index of one byte or of two. -/
def calleeStep (c : CallTarget) : MachineStep :=
  if !c.library then withInt "CALL" c.index
  else if c.index ≤ 0xff then op "CALLLIB" (.byte (UInt8.ofNat c.index.toNat))
  else op "CALLLIB_TWO_BYTE" (.short (UInt16.ofNat c.index.toNat))

/-- The steps of an instruction. Labels and the building of vectors take none, and neither does a
frame without locals. -/
def steps : Instr → List MachineStep
  | nop => [bare "NOOP"]
  | pushConst v => v.steps
  | pushEmpty t => [bare (zeroName t)]
  | pushLocal t o m => [op ("PUSH" ++ t.mark) (.int (o + componentShift m))]
  | pushGlobal t o m => [op ("PUSHG" ++ t.mark) (.int (o + componentShift m))]
  | store g t o m k => [op (storeName g t k) (.int (o + componentShift m))]
  | pop t => [bare ("POP" ++ t.mark)]
  | unary o t => [withTypes o.mnemonic t .void]
  | binary o l r => [withTypes o.mnemonic l r]
  | cast s t => [withTypes "CAST" s t]
  | toList n => [withInt "STACKTOL" n]
  | jump l => [branch "JUMP" none l]
  | jumpIf t l => [branch "JUMPIF" (some (Ty.pair t .void)) l]
  | jumpNot t l => [branch "JUMPNIF" (some (Ty.pair t .void)) l]
  | callBegin t => (if t = .void then [] else [bare (zeroName t)]) ++ [bare "PUSHBP"]
  | call c => [bare "PUSHSP", withInt "PUSHARGI" c.argBytes, withTypes "ADD" .integer .integer,
      bare "POPBP", calleeStep c]
  | enterFrame n => if 0 < n then [withInt "PUSHARGE" n] else []
  | returnValue t => [withInt ("LOAD" ++ t.mark ++ "P") (-(4 + t.size))]
  | unwind ts => ts.map fun t => bare ("POP" ++ t.mark)
  | ret => [bare "RETURN"]
  | state i _ => [withInt "STATE" i]
  | print t => [withTypes "PRINT" t .void]
  | build _ | label _ | unknown _ => []

end Instr

namespace CodeItem

def step? : CodeItem → Option MachineStep
  | op o x => some (.op o.name x)
  | label _ => none
  | jump o types l => some (.branch o.name (if o = .jump then none else some types) l)

def jumpOperand (o : Opcode) (types : UInt8) (d : Int32) : Operand :=
  if o = .jump then .int d else .typedJump types d

/-- A piece of code that can be read back, whatever displacement a jump gets. -/
def Fits : CodeItem → Prop
  | op o x => x.Fits o.operandKind
  | label _ => True
  | jump o types _ => ∀ d, (jumpOperand o types d).Fits o.operandKind

end CodeItem

namespace Opcode

theorem name_pop (t : Ty) : (pop t).name = "POP" ++ t.mark := by cases t <;> rfl

theorem name_pushLocal (t : Ty) : (pushLocal t).name = "PUSH" ++ t.mark := by cases t <;> rfl

theorem name_pushGlobal (t : Ty) : (pushGlobal t).name = "PUSHG" ++ t.mark := by cases t <;> rfl

theorem name_store (t : Ty) (isGlobal keep : Bool) :
    (store t isGlobal keep).name = Instr.storeName isGlobal t keep := by
  cases isGlobal <;> cases keep <;> cases t <;> rfl

theorem name_pushEmpty (t : Ty) : (pushEmpty t).name = Instr.zeroName t := by cases t <;> rfl

theorem name_ofOperator? {o : Operator} {op : Opcode} (h : ofOperator? o = some op) :
    op.name = o.mnemonic := by
  cases o <;> cases h <;> rfl

theorem kind_pop (t : Ty) : (pop t).operandKind = .none := by cases t <;> rfl

theorem kind_pushLocal (t : Ty) : (pushLocal t).operandKind = .int := by cases t <;> rfl

theorem kind_pushGlobal (t : Ty) : (pushGlobal t).operandKind = .int := by cases t <;> rfl

theorem kind_store (t : Ty) (isGlobal keep : Bool) :
    (store t isGlobal keep).operandKind = .int := by
  cases isGlobal <;> cases keep <;> cases t <;> rfl

theorem kind_pushEmpty (t : Ty) : (pushEmpty t).operandKind = .none := by cases t <;> rfl

theorem kind_ofOperator? {o : Operator} {op : Opcode} (h : ofOperator? o = some op) :
    op.operandKind = .type := by
  cases o <;> cases h <;> rfl

end Opcode

namespace Lowering

mutual

theorem constant_steps : ∀ v : Value, (constant v).filterMap CodeItem.step? = v.steps
  | .list vs => by
    rw [constant, Value.steps, filterMap_append, constants_steps vs]
    rfl
  | .void | .integer _ | .float _ | .string _ | .key _ | .vector .. | .rotation .. | .unknown _ => rfl

theorem constants_steps : ∀ vs : List Value,
    (constants vs).filterMap CodeItem.step? = Value.stepsAll vs
  | [] => rfl
  | v :: vs => by
    rw [constants, Value.stepsAll, filterMap_append, constant_steps v, constants_steps vs]

end

mutual

/-- Constants can be read back if their texts hold no NUL. -/
theorem constant_fits : ∀ v : Value, (∀ s ∈ v.strings, 0 ∉ Text.bytes s) →
    ∀ item ∈ constant v, item.Fits
  | .list vs, h => by
    have hElements := constants_fits vs h
    have hCollapse : (withInt .stackToList vs.length).Fits := Operand.Fits.int _
    simpa [constant, or_imp, forall_and] using ⟨hElements, hCollapse⟩
  | .string s, h => by
    have hText : (CodeItem.op .pushString (.string (Text.bytes s))).Fits :=
      Operand.Fits.string (h s (by simp [Value.strings]))
    simpa [constant] using hText
  | .key s, h => by
    have hText : (CodeItem.op .pushString (.string (Text.bytes s))).Fits :=
      Operand.Fits.string (h s (by simp [Value.strings]))
    have hCast : (withTypes .cast .string .key).Fits := Operand.Fits.types _
    simpa [constant] using ⟨hText, hCast⟩
  | .integer n, _ => by
    have hFits : (CodeItem.op .pushInteger (.int n)).Fits := Operand.Fits.int n
    simpa [constant] using hFits
  | .float x, _ => by
    have hFits : (CodeItem.op .pushFloat (.float x)).Fits := Operand.Fits.float x
    simpa [constant] using hFits
  | .vector x y z, _ => by
    have hFits : (CodeItem.op .pushVector (.floats [x, y, z])).Fits := Operand.Fits.vector x y z
    simpa [constant] using hFits
  | .rotation x y z s, _ => by
    have hFits : (CodeItem.op .pushRotation (.floats [x, y, z, s])).Fits :=
      Operand.Fits.rotation x y z s
    simpa [constant] using hFits
  | .void, _ | .unknown _, _ => by
    have hFits : (bare .pushZero).Fits := Operand.Fits.none
    simpa [constant] using hFits

theorem constants_fits : ∀ vs : List Value, (∀ s ∈ Value.stringsAll vs, 0 ∉ Text.bytes s) →
    ∀ item ∈ constants vs, item.Fits
  | [], _ => by simp [constants]
  | v :: vs, h => by
    have hHead := constant_fits v fun s hs => h s (by simp [Value.stringsAll, hs])
    have hTail := constants_fits vs fun s hs => h s (by simp [Value.stringsAll, hs])
    simpa [constants, or_imp, forall_and] using ⟨hHead, hTail⟩

end

mutual

theorem label_not_mem_constant : ∀ v : Value, .label l ∉ constant v
  | .list vs => by simp [constant, withInt, label_not_mem_constants vs]
  | .void | .unknown _ => by simp [constant, bare]
  | .key _ => by simp [constant, withTypes]
  | .integer _ | .float _ | .string _ | .vector .. | .rotation .. => by simp [constant]

theorem label_not_mem_constants : ∀ vs : List Value, .label l ∉ constants vs
  | [] => by simp [constants]
  | v :: vs => by simp [constants, label_not_mem_constant v, label_not_mem_constants vs]

end

/-- A component has its place among the four. -/
theorem componentOffset?_eq {o : Int32} (h : componentOffset? m = some o) :
    o = componentShift m := by
  by_cases hX : m = "x"
  · subst hX
    cases h
    rfl
  by_cases hY : m = "y"
  · subst hY
    cases h
    rfl
  by_cases hZ : m = "z"
  · subst hZ
    cases h
    rfl
  by_cases hS : m = "s"
  · subst hS
    cases h
    rfl
  · have hNone : componentIndex? m = none := by
      simp [componentIndex?, componentNames, List.findIdx?_cons, Ne.symm hX, Ne.symm hY, Ne.symm hZ,
        Ne.symm hS]
    simp [componentOffset?, hNone] at h

theorem memberOffset_eq {o o' : Int32} (h : memberOffset o m = .ok o') :
    o' = o + componentShift m := by
  unfold memberOffset at h
  split at h
  · rename_i hWhole
    cases h
    subst hWhole
    exact (Int32.add_zero o).symm
  · split at h
    · rename_i shift hShift
      cases h
      rw [componentOffset?_eq hShift]
    · cases h

/-- What the pieces of code of an instruction are: they follow the convention of the machine, can be
read back, and define a label only where the instruction does. -/
structure Expands (i : Instr) (items : List CodeItem) : Prop where
  steps : items.filterMap CodeItem.step? = i.steps
  fits : (∀ s ∈ i.strings, 0 ∉ Text.bytes s) → ∀ item ∈ items, item.Fits
  label : ∀ l, i = .label l → items = [.label l]
  eq_label : ∀ l, .label l ∈ items → i = .label l

namespace Expands

theorem ofOps (ms : List (Opcode × Operand))
    (hSteps : i.steps = ms.map fun m => .op m.1.name m.2)
    (hFits : ∀ m ∈ ms, m.2.Fits m.1.operandKind) (hLabel : ∀ l, i ≠ .label l) :
    Expands i (ms.map fun m => .op m.1 m.2) where
  steps := by
    rw [hSteps, filterMap_map]
    exact congrFun filterMap_eq_map ms
  fits := by
    intro _ item hItem
    obtain ⟨m, hm, rfl⟩ := List.mem_map.mp hItem
    exact hFits m hm
  label := fun l hl => absurd hl (hLabel l)
  eq_label := by simp

theorem single (hSteps : i.steps = [.op o.name x]) (hFits : x.Fits o.operandKind)
    (hLabel : ∀ l, i ≠ .label l) : Expands i [.op o x] :=
  ofOps [(o, x)] hSteps (by simpa using hFits) hLabel

theorem ofJump {types : UInt8}
    (hSteps : i.steps = [.branch o.name (if o = .jump then none else some types) l])
    (hFits : (CodeItem.jump o types l).Fits) (hLabel : ∀ l, i ≠ .label l) :
    Expands i [.jump o types l] where
  steps := hSteps.symm
  fits := by simpa using fun _ => hFits
  label := fun l hl => absurd hl (hLabel l)
  eq_label := by simp

end Expands

/-- The call of a function: the new frame is entered, and then the callee. -/
theorem expands_call {c : CallTarget} (hCallee : Instr.calleeStep c = .op o.name x)
    (hFits : x.Fits o.operandKind) :
    Expands (.call c) (enterCallee c.argBytes ++ [CodeItem.op o x]) := by
  have hOps := Expands.ofOps (i := .call c)
    [(.pushTop, .none), (.pushInteger, .int (Int32.ofInt c.argBytes)),
      (.add, .types (Ty.pair .integer .integer)), (.popBase, .none), (o, x)]
  refine hOps ?_ ?_ (by simp)
  · rw [Instr.steps, hCallee]
    rfl
  · simp only [forall_mem_cons, not_mem_nil, false_imp_iff, implies_true, and_true]
    exact ⟨.none, .int _, .types _, .none, hFits⟩

/-- Expansion follows the convention of the machine, instruction by instruction. -/
theorem expand_expands {items : List CodeItem} (h : expand i = .ok items) :
    Expands i items := by
  cases i with
  | nop | cast s t | toList n | ret | state n name | print t =>
    cases h
    exact .single rfl (by constructor) (by simp)
  | pushConst v =>
    cases h
    exact ⟨constant_steps v, constant_fits v, by simp, by simp [label_not_mem_constant v]⟩
  | pushEmpty t =>
    cases h
    refine .single ?_ ?_ (by simp)
    · rw [Opcode.name_pushEmpty, Instr.steps, MachineStep.bare]
    · rw [Opcode.kind_pushEmpty]
      exact .none
  | pop t =>
    cases h
    refine .single ?_ ?_ (by simp)
    · rw [Opcode.name_pop, Instr.steps, MachineStep.bare]
    · rw [Opcode.kind_pop]
      exact .none
  | pushLocal t o m =>
    obtain ⟨o', hOffset, hItems⟩ := bind_eq_ok.mp h
    cases hItems
    obtain rfl := memberOffset_eq hOffset
    refine .single ?_ ?_ (by simp)
    · rw [Opcode.name_pushLocal, Instr.steps]
    · rw [Opcode.kind_pushLocal]
      exact .int _
  | pushGlobal t o m =>
    obtain ⟨o', hOffset, hItems⟩ := bind_eq_ok.mp h
    cases hItems
    obtain rfl := memberOffset_eq hOffset
    refine .single ?_ ?_ (by simp)
    · rw [Opcode.name_pushGlobal, Instr.steps]
    · rw [Opcode.kind_pushGlobal]
      exact .int _
  | store g t o m k =>
    obtain ⟨o', hOffset, hItems⟩ := bind_eq_ok.mp h
    cases hItems
    obtain rfl := memberOffset_eq hOffset
    refine .single ?_ ?_ (by simp)
    · rw [Opcode.name_store, Instr.steps]
    · rw [Opcode.kind_store]
      exact .int _
  | unary o t | binary o l r =>
    cases hCode : Opcode.ofOperator? o with
    | none => simp [expand, hCode] at h
    | some code =>
      simp only [expand, hCode] at h
      split at h
      · cases h
        refine .single ?_ ?_ (by simp)
        · rw [Opcode.name_ofOperator? hCode, Instr.steps, MachineStep.withTypes]
        · rw [Opcode.kind_ofOperator? hCode]
          exact .types _
      · cases h
  | build t =>
    cases h
    exact .ofOps [] rfl (by simp) (by simp)
  | label l =>
    cases h
    exact ⟨rfl, by simp [CodeItem.Fits], by simp, by simp [eq_comm]⟩
  | jump l =>
    cases h
    exact .ofJump rfl (fun d => .int d) (by simp)
  | jumpIf t l | jumpNot t l =>
    cases h
    exact .ofJump rfl (fun d => .typedJump _ d) (by simp)
  | callBegin t =>
    cases h
    by_cases hVoid : t = .void
    · subst hVoid
      exact .single rfl .none (by simp)
    · have hOps := Expands.ofOps (i := .callBegin t) [(.pushEmpty t, .none), (.pushBase, .none)]
      simp only [hVoid, if_false]
      refine hOps ?_ ?_ (by simp)
      · simp only [Instr.steps, hVoid, if_false, ← Opcode.name_pushEmpty]
        rfl
      · simp only [forall_mem_cons, not_mem_nil, false_imp_iff, implies_true, and_true,
          Opcode.kind_pushEmpty]
        exact ⟨.none, .none⟩
  | call c =>
    simp only [expand] at h
    split at h
    · rename_i hOwn
      cases h
      exact expands_call (if_pos hOwn) (.int _)
    · rename_i hLibrary
      split at h
      · cases h
      · split at h
        · rename_i hShort
          cases h
          exact expands_call ((if_neg hLibrary).trans (if_pos hShort)) (.byte _)
        · rename_i hWide
          cases h
          exact expands_call ((if_neg hLibrary).trans (if_neg hWide)) (.short _)
  | enterFrame n =>
    cases h
    by_cases hRoom : 0 < n
    · rw [if_pos hRoom]
      exact .single (if_pos hRoom) (.int _) (by simp)
    · rw [if_neg hRoom]
      exact .ofOps [] (if_neg hRoom) (by simp) (by simp)
  | returnValue t =>
    cases h
    refine .single ?_ ?_ (by simp)
    · rw [Opcode.name_store]
      rfl
    · rw [Opcode.kind_store]
      exact .int _
  | unwind ts =>
    cases h
    have hItems : (ts.map fun t => bare (.pop t)) =
        (ts.map fun t => (Opcode.pop t, Operand.none)).map fun m => .op m.1 m.2 := by
      rw [map_map]
      rfl
    rw [hItems]
    refine .ofOps _ ?_ ?_ (by simp)
    · simp [Instr.steps, MachineStep.bare, Opcode.name_pop, Function.comp_def]
    · intro m hm
      obtain ⟨t, _, rfl⟩ := List.mem_map.mp hm
      rw [Opcode.kind_pop]
      exact .none
  | unknown n => cases h

end Lowering
end Lsl
