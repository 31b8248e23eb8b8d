import Lsl.Code.Program
import Lsl.Text.Word

/-! Assembly text for the instructions of a body. The target machine keeps its own frames, so that
calls, frames and unwinding need no text; operations it lacks are calls of the runtime class. -/
namespace Lsl.Assembly

/-- The class that holds the operations on scripts' values. -/
def runtimeClass : String := "[LslUserScript]LindenLab.SecondLife.LslUserScript"

def libraryClass : String := "[LslLibrary]LindenLab.SecondLife.Library"

def scriptClass : String := "LSL_Script"

/-- The target's spelling of a type; unknown types have none. -/
def typeName : Ty → String
  | .void => "void"
  | .integer => "int32"
  | .float => "float32"
  | .string => "string"
  | .key => "valuetype [ScriptTypes]LindenLab.SecondLife.Key"
  | .vector => "class [ScriptTypes]LindenLab.SecondLife.Vector"
  | .rotation => "class [ScriptTypes]LindenLab.SecondLife.Quaternion"
  | .list => "class [mscorlib]System.Collections.ArrayList"
  | .unknown _ => ""

def signature (ts : List Ty) : String := ", ".intercalate (ts.map typeName)

def runtimeCall (result : String) (method : String) (params : String) : String :=
  s!"call {result} {runtimeClass}::{method}({params})"

def createKey : String := runtimeCall (typeName .key) "CreateKey" "string"

def createVector (t : Ty) : String :=
  runtimeCall (typeName t) "CreateVector" "float32, float32, float32"

def createRotation (t : Ty) : String :=
  runtimeCall (typeName t) "CreateQuaternion" "float32, float32, float32, float32"

def createList : String := runtimeCall (typeName .list) "CreateList" "int32"

def loadFloat (x : Single) : String := "ldc.r4 " ++ x.literal

def loadInt (n : Int) : String := s!"ldc.i4 {n}"

def loadString (s : String) : String := "ldstr " ++ Text.quote s

mutual

def constant : Value → List String
  | .integer n => [loadInt n.toInt]
  | .float x => [loadFloat x]
  | .string s => [loadString s]
  | .key s => [loadString s, createKey]
  | .vector x y z => [x, y, z].map loadFloat ++ [createVector .vector]
  | .rotation x y z s => [x, y, z, s].map loadFloat ++ [createRotation .rotation]
  | .list vs => constants vs ++ [loadInt vs.length, createList]
  | .void | .unknown _ => []

def constants : List Value → List String
  | [] => []
  | v :: vs => constant v ++ constants vs

end

/-- The target's own instructions for an operator on two numbers of one type. -/
def numericSequence? : Operator → Option (List String)
  | .add => some ["add"]
  | .sub => some ["sub"]
  | .mul => some ["mul"]
  | .div => some ["div"]
  | .mod => some ["rem"]
  | .bitAnd => some ["and"]
  | .bitOr => some ["or"]
  | .bitXor => some ["xor"]
  | .shl => some ["shl"]
  | .shr => some ["shr"]
  | .eq => some ["ceq"]
  | .neq => some ["ceq", "ldc.i4.0", "ceq"]
  | .less => some ["clt"]
  | .greater => some ["cgt"]
  | .leq => some ["cgt", "ldc.i4.0", "ceq"]
  | .geq => some ["clt", "ldc.i4.0", "ceq"]
  | .boolAnd => some ["and", "ldc.i4.0", "cgt.un"]
  | .boolOr => some ["or", "ldc.i4.0", "cgt.un"]
  | _ => none

/-- The runtime's name of an operator; operators it lacks have none. -/
def operatorName : Operator → String
  | .add => "Add"
  | .sub => "Subtract"
  | .mul => "Multiply"
  | .div => "Divide"
  | .mod => "Modulo"
  | .eq => "Equals"
  | .neq => "NotEquals"
  | .leq => "LessOrEqual"
  | .geq => "GreaterOrEqual"
  | .less => "Less"
  | .greater => "Greater"
  | .neg => "Negate"
  | .bitNot => "BitwiseNot"
  | .boolNot => "LogicalNot"
  | _ => ""

/-- A binary operator: the target's own on two numbers of one type, else the runtime's. -/
def binary (op : Operator) (l r : Ty) : List String :=
  let viaRuntime :=
    [runtimeCall (typeName ((op.binaryResult? l r).getD .void)) s!"'{operatorName op}'"
      (signature [l, r])]
  if l.isNumeric ∧ l = r then (numericSequence? op).getD viaRuntime else viaRuntime

def unary (op : Operator) (t : Ty) : List String :=
  if op = .neg ∧ t.isNumeric then ["neg"]
  else if op = .bitNot ∧ t = .integer then ["not"]
  else if op = .boolNot ∧ t = .integer then ["ldc.i4.0", "ceq"]
  else [runtimeCall (typeName t) s!"'{operatorName op}'" (typeName t)]

def cast (source target : Ty) : List String :=
  if source = target then []
  else match source, target with
    | .integer, .float => ["conv.r4"]
    | .float, .integer => ["conv.i4"]
    | _, _ =>
      [runtimeCall (typeName target) s!"'To{Text.capitalize target.name}'" (typeName source)]

/-- What makes the value on top of the stack a condition. -/
def truth (t : Ty) : List String :=
  if t = .integer then [] else [runtimeCall "bool" "IsTrue" (typeName t)]

def labelName (l : Label) : String := s!"LabelTempJump{l}"

inductive SequenceError where
  | noSlot (offset : Int32)
  | noGlobal (offset : Int32)
  | unknownOp (name : String)
deriving DecidableEq

def SequenceError.message : SequenceError → String
  | noSlot o => s!"no frame slot at offset {o.toInt}"
  | noGlobal o => s!"no global at offset {o.toInt}"
  | unknownOp n => s!"unknown IR op {n}"

/-- A variable of the target: an argument, a local or a static field. -/
inductive Place where
  | arg (index : Nat)
  | loc (index : Nat)
  | static (name : String)
deriving DecidableEq

/-- The first slot that starts at an offset, with its number. Slots follow each other from `start`. -/
def findSlot (offset : Int32) (start place : Nat) : List Ty → Option (Nat × Ty)
  | [] => none
  | t :: ts =>
    if Int32.ofNat start = offset then some (place, t)
    else findSlot offset (start + t.size) (place + 1) ts

/-- The argument or local at an offset of the frame. The first argument of a handler is the script
itself. -/
def frameSlot (isHandler : Bool) (b : Body) (offset : Int32) :
    Except SequenceError (Place × Ty) :=
  match findSlot offset 0 0 b.paramTypes with
  | some (i, t) => .ok (.arg (if isHandler then i + 1 else i), t)
  | none =>
    match findSlot offset b.paramBytes 0 b.localTypes with
    | some (i, t) => .ok (.loc i, t)
    | none => .error (.noSlot offset)

def staticField (gs : List GlobalData) (offset : Int32) : Except SequenceError (Place × Ty) :=
  match gs.find? fun g => Int32.ofInt g.offset == offset with
  | some g => .ok (.static g.name, g.ty)
  | none => .error (.noGlobal offset)

def field (t : Ty) (name : String) : String := s!"{typeName t} {scriptClass}::'{name}'"

def load (t : Ty) : Place → String
  | .arg i => s!"ldarg.s {i}"
  | .loc i => s!"ldloc.s {i}"
  | .static n => "ldsfld " ++ field t n

def store (t : Ty) : Place → String
  | .arg i => s!"starg.s {i}"
  | .loc i => s!"stloc.s {i}"
  | .static n => "stsfld " ++ field t n

/-- The body that is written, whether it handles an event, and the globals it can name. -/
structure Frame where
  globals : List GlobalData
  isHandler : Bool
  body : Body

def Frame.place (f : Frame) (isGlobal : Bool) (offset : Int32) :
    Except SequenceError (Place × Ty) :=
  if isGlobal then staticField f.globals offset else frameSlot f.isHandler f.body offset

/-- The lines that read a variable or one of its components. -/
def Frame.push (f : Frame) (isGlobal : Bool) (offset : Int32) (member : String) :
    Except SequenceError (List String) := do
  let (p, t) ← f.place isGlobal offset
  return load t p :: if member = "" then [] else [s!"ldfld float32 {typeName t}::'{member}'"]

/-- The lines that write a variable or replace one of its components. -/
def Frame.store (f : Frame) (isGlobal : Bool) (offset : Int32) (member : String) (keep : Bool) :
    Except SequenceError (List String) := do
  let (p, t) ← f.place isGlobal offset
  let component := (componentIndex? member).getD 0
  let replace := if member = "" then [] else
    [load t p, loadInt component,
      runtimeCall (typeName t) "'WithComponent'" s!"float32, {typeName t}, int32"]
  return (if keep then ["dup"] else []) ++ replace ++ [Assembly.store t p]

def Frame.lines (f : Frame) : Instr → Except SequenceError (List String)
  | .nop | .callBegin _ | .enterFrame _ | .returnValue _ | .unwind _ => .ok []
  | .pushConst v => .ok (constant v)
  | .pushEmpty t => .ok (constant (Value.zero t))
  | .pushLocal _ o m => f.push false o m
  | .pushGlobal _ o m => f.push true o m
  | .store g _ o m k => f.store g o m k
  | .pop _ => .ok ["pop"]
  | .unary op t => .ok (unary op t)
  | .binary op l r => .ok (binary op l r)
  | .cast s t => .ok (cast s t)
  | .toList n => .ok [loadInt n, createList]
  | .build t => .ok [if t = .rotation then createRotation t else createVector t]
  | .label l => .ok [labelName l ++ ":"]
  | .jump l => .ok ["br " ++ labelName l]
  | .jumpIf t l => .ok (truth t ++ ["brtrue " ++ labelName l])
  | .jumpNot t l => .ok (truth t ++ ["brfalse " ++ labelName l])
  | .call c =>
    let owner := if c.library then s!"{libraryClass}::'{c.name}'" else s!"{scriptClass}::'g{c.name}'"
    .ok [s!"call {typeName c.result} {owner}({signature c.params})"]
  | .ret => .ok ["ret"]
  | .state _ n =>
    .ok ["ldarg.0", loadString n, s!"call instance void {runtimeClass}::ChangeState(string)"]
  | .print t => .ok [runtimeCall "void" "Print" (typeName t)]
  | i@(.unknown _) => .error (.unknownOp i.opName)

end Lsl.Assembly
