import Lsl.Language.Operator

/-! The instruction set of the script machine. Every instruction is one byte and the operand that
its opcode calls for; a byte outside the set is an instruction without operand. -/
namespace Lsl

/-- The bytes that follow an opcode. -/
inductive OperandKind where
  | none
  | int
  | float
  | string
  | vector
  | rotation
  | type
  | typeJump
  | byte
  | short
deriving DecidableEq

def OperandKind.code : OperandKind → Nat
  | none => 0
  | int => 1
  | float => 2
  | string => 3
  | vector => 4
  | rotation => 5
  | type => 6
  | typeJump => 7
  | byte => 8
  | short => 9

structure Opcode where
  byte : UInt8
deriving DecidableEq

namespace Opcode

def table : List (UInt8 × String × OperandKind) :=
  [(0x00, "NOOP", .none),
    (0x01, "POP", .none),
    (0x02, "POPS", .none),
    (0x03, "POPL", .none),
    (0x04, "POPV", .none),
    (0x05, "POPQ", .none),
    (0x06, "POPARG", .int),
    (0x07, "POPIP", .none),
    (0x08, "POPBP", .none),
    (0x09, "POPSP", .none),
    (0x0a, "POPSLR", .none),
    (0x20, "DUP", .none),
    (0x21, "DUPS", .none),
    (0x22, "DUPL", .none),
    (0x23, "DUPV", .none),
    (0x24, "DUPQ", .none),
    (0x30, "STORE", .int),
    (0x31, "STORES", .int),
    (0x32, "STOREL", .int),
    (0x33, "STOREV", .int),
    (0x34, "STOREQ", .int),
    (0x35, "STOREG", .int),
    (0x36, "STOREGS", .int),
    (0x37, "STOREGL", .int),
    (0x38, "STOREGV", .int),
    (0x39, "STOREGQ", .int),
    (0x3a, "LOADP", .int),
    (0x3b, "LOADSP", .int),
    (0x3c, "LOADLP", .int),
    (0x3d, "LOADVP", .int),
    (0x3e, "LOADQP", .int),
    (0x3f, "LOADGP", .int),
    (0x40, "LOADGSP", .int),
    (0x41, "LOADGLP", .int),
    (0x42, "LOADGVP", .int),
    (0x43, "LOADGQP", .int),
    (0x50, "PUSH", .int),
    (0x51, "PUSHS", .int),
    (0x52, "PUSHL", .int),
    (0x53, "PUSHV", .int),
    (0x54, "PUSHQ", .int),
    (0x55, "PUSHG", .int),
    (0x56, "PUSHGS", .int),
    (0x57, "PUSHGL", .int),
    (0x58, "PUSHGV", .int),
    (0x59, "PUSHGQ", .int),
    (0x5a, "PUSHIP", .none),
    (0x5b, "PUSHBP", .none),
    (0x5c, "PUSHSP", .none),
    (0x5d, "PUSHARGB", .byte),
    (0x5e, "PUSHARGI", .int),
    (0x5f, "PUSHARGF", .float),
    (0x60, "PUSHARGS", .string),
    (0x61, "PUSHARGV", .vector),
    (0x62, "PUSHARGQ", .rotation),
    (0x63, "PUSHE", .none),
    (0x64, "PUSHEV", .none),
    (0x65, "PUSHEQ", .none),
    (0x66, "PUSHARGE", .int),
    (0x70, "ADD", .type),
    (0x71, "SUB", .type),
    (0x72, "MUL", .type),
    (0x73, "DIV", .type),
    (0x74, "MOD", .type),
    (0x75, "EQ", .type),
    (0x76, "NEQ", .type),
    (0x77, "LEQ", .type),
    (0x78, "GEQ", .type),
    (0x79, "LESS", .type),
    (0x7a, "GREATER", .type),
    (0x7b, "BITAND", .type),
    (0x7c, "BITOR", .type),
    (0x7d, "BITXOR", .type),
    (0x7e, "BOOLAND", .type),
    (0x7f, "BOOLOR", .type),
    (0x80, "NEG", .type),
    (0x81, "BITNOT", .type),
    (0x82, "BOOLNOT", .type),
    (0x90, "JUMP", .int),
    (0x91, "JUMPIF", .typeJump),
    (0x92, "JUMPNIF", .typeJump),
    (0x93, "STATE", .int),
    (0x94, "CALL", .int),
    (0x95, "RETURN", .none),
    (0xa0, "CAST", .type),
    (0xb0, "STACKTOS", .int),
    (0xb1, "STACKTOL", .int),
    (0xc0, "PRINT", .type),
    (0xd0, "CALLLIB", .byte),
    (0xd1, "CALLLIB_TWO_BYTE", .short),
    (0xe0, "SHL", .type),
    (0xe1, "SHR", .type)]

def isKnown (op : Opcode) : Bool := (table.lookup op.byte).isSome

def name (op : Opcode) : String :=
  match table.lookup op.byte with
  | some (n, _) => n
  | none => s!"UNKNOWN(0x{Text.upperHex 2 op.byte.toNat})"

def operandKind (op : Opcode) : OperandKind :=
  match table.lookup op.byte with
  | some (_, k) => k
  | none => .none

def isJump (op : Opcode) : Bool := 0x90 ≤ op.byte && op.byte ≤ 0x92

def noop : Opcode := ⟨0x00⟩
def popBase : Opcode := ⟨0x08⟩
def pushBase : Opcode := ⟨0x5b⟩
def pushTop : Opcode := ⟨0x5c⟩
def pushInteger : Opcode := ⟨0x5e⟩
def pushFloat : Opcode := ⟨0x5f⟩
def pushString : Opcode := ⟨0x60⟩
def pushVector : Opcode := ⟨0x61⟩
def pushRotation : Opcode := ⟨0x62⟩
def pushZero : Opcode := ⟨0x63⟩
def pushZeroVector : Opcode := ⟨0x64⟩
def pushZeroRotation : Opcode := ⟨0x65⟩
def pushZeros : Opcode := ⟨0x66⟩
def add : Opcode := ⟨0x70⟩
def jump : Opcode := ⟨0x90⟩
def jumpIf : Opcode := ⟨0x91⟩
def jumpNot : Opcode := ⟨0x92⟩
def state : Opcode := ⟨0x93⟩
def call : Opcode := ⟨0x94⟩
def ret : Opcode := ⟨0x95⟩
def cast : Opcode := ⟨0xa0⟩
def stackToList : Opcode := ⟨0xb1⟩
def print : Opcode := ⟨0xc0⟩
def callLibrary : Opcode := ⟨0xd0⟩
def callLibraryWide : Opcode := ⟨0xd1⟩

/-- The member of a family of five opcodes for a type: numbers, texts, lists, vectors, rotations. -/
def ofFamily (base : UInt8) : Ty → Opcode
  | .string | .key => ⟨base + 1⟩
  | .list => ⟨base + 2⟩
  | .vector => ⟨base + 3⟩
  | .rotation => ⟨base + 4⟩
  | _ => ⟨base⟩

def pop (t : Ty) : Opcode := ofFamily 0x01 t

def pushLocal (t : Ty) : Opcode := ofFamily 0x50 t

def pushGlobal (t : Ty) : Opcode := ofFamily 0x55 t

/-- The store of a type: into a frame or a global, leaving the value on the stack or not. -/
def store (t : Ty) (isGlobal keep : Bool) : Opcode :=
  match isGlobal, keep with
  | true, true => ofFamily 0x35 t
  | true, false => ofFamily 0x3f t
  | false, true => ofFamily 0x30 t
  | false, false => ofFamily 0x3a t

def pushEmpty : Ty → Opcode
  | .vector => pushZeroVector
  | .rotation => pushZeroRotation
  | _ => pushZero

/-- The opcode of an operator; the operand types follow it in one byte. -/
def ofOperator? : Operator → Option Opcode
  | .add => some add
  | .sub => some ⟨0x71⟩
  | .mul => some ⟨0x72⟩
  | .div => some ⟨0x73⟩
  | .mod => some ⟨0x74⟩
  | .eq => some ⟨0x75⟩
  | .neq => some ⟨0x76⟩
  | .leq => some ⟨0x77⟩
  | .geq => some ⟨0x78⟩
  | .less => some ⟨0x79⟩
  | .greater => some ⟨0x7a⟩
  | .bitAnd => some ⟨0x7b⟩
  | .bitOr => some ⟨0x7c⟩
  | .bitXor => some ⟨0x7d⟩
  | .boolAnd => some ⟨0x7e⟩
  | .boolOr => some ⟨0x7f⟩
  | .shl => some ⟨0xe0⟩
  | .shr => some ⟨0xe1⟩
  | .neg => some ⟨0x80⟩
  | .bitNot => some ⟨0x81⟩
  | .boolNot => some ⟨0x82⟩
  | .none | .unknown _ => none

end Opcode
end Lsl
