import Lsl.Code.Program
import Lsl.Machine.Chunk

/-! Machine code of a body. Each instruction of the body expands into machine instructions, label
definitions and jumps; the jumps are connected when all of them are placed. -/
namespace Lsl

/-- One piece of code before labels have addresses. -/
inductive CodeItem where
  | op (op : Opcode) (operand : Operand)
  | label (l : Label)
  | jump (op : Opcode) (types : UInt8) (l : Label)

inductive ExpansionError where
  | noUnary (op : Operator)
  | noBinary (op : Operator)
  | unknownMember (member : String)
  | libraryIndex (index : Int)
  | unknownOp (name : String)
deriving DecidableEq

def ExpansionError.message : ExpansionError → String
  | noUnary op => s!"no opcode for unary {op.symbol}"
  | noBinary op => s!"no opcode for binary {op.symbol}"
  | unknownMember m => s!"unknown member {Text.quote m}"
  | libraryIndex i => s!"library index {i} out of range"
  | unknownOp n => s!"unknown IR op {n}"

/-- Why a body has no machine code: an instruction, by place, or a jump. -/
inductive LoweringError where
  | instruction (place : Nat) (instr : Instr) (cause : ExpansionError)
  | jump (cause : ChunkError)

def LoweringError.message : LoweringError → String
  | instruction n i e => s!"instruction {n} ({i.text}): {e.message}"
  | jump e => e.message

namespace Lowering

/-- The saved base pointer between the slot of a result and the first argument. -/
def frameLink : Nat := 4

/-- The offset of the slot of a result from the base pointer. -/
def resultOffset (t : Ty) : Int32 := Int32.ofInt (-(frameLink + t.size : Int))

def memberOffset (offset : Int32) (member : String) : Except ExpansionError Int32 :=
  if member = "" then .ok offset
  else match componentOffset? member with
    | some o => .ok (offset + o)
    | none => .error (.unknownMember member)

def withInt (op : Opcode) (n : Int) : CodeItem := .op op (.int (Int32.ofInt n))

def withTypes (op : Opcode) (l r : Ty) : CodeItem := .op op (.types (Ty.pair l r))

def bare (op : Opcode) : CodeItem := .op op .none

mutual

/-- The pushes of a constant. A list is pushed element by element and then collapsed. -/
def constant : Value → List CodeItem
  | .integer n => [.op .pushInteger (.int n)]
  | .float x => [.op .pushFloat (.float x)]
  | .string s => [.op .pushString (.string (Text.bytes s))]
  | .key s => [.op .pushString (.string (Text.bytes s)), withTypes .cast .string .key]
  | .vector x y z => [.op .pushVector (.floats [x, y, z])]
  | .rotation x y z s => [.op .pushRotation (.floats [x, y, z, s])]
  | .list vs => constants vs ++ [withInt .stackToList vs.length]
  | .void | .unknown _ => [bare .pushZero]

def constants : List Value → List CodeItem
  | [] => []
  | v :: vs => constant v ++ constants vs

end

/-- The end of a call: the new base pointer lies below the arguments. -/
def enterCallee (argBytes : Int) : List CodeItem :=
  [bare .pushTop, withInt .pushInteger argBytes, withTypes .add .integer .integer, bare .popBase]

/-- The machine code of one instruction. The components of a vector already lie on the stack in
its layout, so building it takes nothing. -/
def expand : Instr → Except ExpansionError (List CodeItem)
  | .nop => .ok [bare .noop]
  | .pushConst v => .ok (constant v)
  | .pushEmpty t => .ok [bare (.pushEmpty t)]
  | .pushLocal t o m => do return [.op (.pushLocal t) (.int (← memberOffset o m))]
  | .pushGlobal t o m => do return [.op (.pushGlobal t) (.int (← memberOffset o m))]
  | .store g t o m k => do return [.op (.store t g k) (.int (← memberOffset o m))]
  | .pop t => .ok [bare (.pop t)]
  | .unary op t =>
    match Opcode.ofOperator? op with
    | some code => if op.isUnary then .ok [withTypes code t .void] else .error (.noUnary op)
    | none => .error (.noUnary op)
  | .binary op l r =>
    match Opcode.ofOperator? op with
    | some code => if op.isBinary then .ok [withTypes code l r] else .error (.noBinary op)
    | none => .error (.noBinary op)
  | .cast s t => .ok [withTypes .cast s t]
  | .toList n => .ok [withInt .stackToList n]
  | .build _ => .ok []
  | .label l => .ok [.label l]
  | .jump l => .ok [.jump .jump 0 l]
  | .jumpIf t l => .ok [.jump .jumpIf (Ty.pair t .void) l]
  | .jumpNot t l => .ok [.jump .jumpNot (Ty.pair t .void) l]
  | .callBegin t =>
    .ok ((if t = .void then [] else [bare (.pushEmpty t)]) ++ [bare .pushBase])
  | .call c =>
    if !c.library then .ok (enterCallee c.argBytes ++ [withInt .call c.index])
    else if c.index < 0 ∨ 0xffff < c.index then .error (.libraryIndex c.index)
    else if c.index ≤ 0xff then
      .ok (enterCallee c.argBytes ++ [.op .callLibrary (.byte (UInt8.ofNat c.index.toNat))])
    else
      .ok (enterCallee c.argBytes ++ [.op .callLibraryWide (.short (UInt16.ofNat c.index.toNat))])
  | .enterFrame n => .ok (if 0 < n then [withInt .pushZeros n] else [])
  | .returnValue t => .ok [.op (.store t false false) (.int (resultOffset t))]
  | .unwind ts => .ok (ts.map fun t => bare (.pop t))
  | .ret => .ok [bare .ret]
  | .state i _ => .ok [withInt .state i]
  | .print t => .ok [withTypes .print t .void]
  | i@(.unknown _) => .error (.unknownOp i.opName)

/-- The machine code of instructions, of which the first has the number `place`. -/
def expandFrom (place : Nat) : List Instr → Except LoweringError (List CodeItem)
  | [] => .ok []
  | i :: is =>
    match expand i with
    | .error e => .error (.instruction place i e)
    | .ok items => (expandFrom (place + 1) is).map (items ++ ·)

def place (c : Chunk) : CodeItem → Chunk
  | .op op operand => c.emit op operand
  | .label l => c.define l
  | .jump op types l => c.emitJump op types l

end Lowering

def Body.lower (b : Body) : Except LoweringError Chunk := do
  let items ← Lowering.expandFrom 0 b.code
  match (items.foldl Lowering.place {}).connect with
  | (c, none) => return c
  | (_, some e) => throw (.jump e)

end Lsl
