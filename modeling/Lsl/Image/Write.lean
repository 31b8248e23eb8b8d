import Lsl.Image.Heap
import Lsl.Image.Registers
import Lsl.Machine.Lowering

/-! Memory images. The registers are followed by the globals, the functions, the states and the heap;
tables at the head of the functions and states tell where each of them starts. What is left of the
memory is zero. -/
namespace Lsl

inductive AssemblyError where
  | misplacedGlobal (name : String) (offset : Int) (place : Nat)
  | globalValue (name : String) (cause : HeapError)
  | functionCode (name : String) (cause : LoweringError)
  | handlerCode (state : String) (kind : EventKind) (cause : LoweringError)
  | outOfMemory (used : Nat) (memory : Int)

namespace AssemblyError

def message : AssemblyError → String
  | misplacedGlobal n o p => s!"globals: global {n} allocated at {o}, lays out at {p}"
  | globalValue n e => s!"globals: global {n}: {e.message}"
  | functionCode n e => s!"functions: function {n}: {e.message}"
  | handlerCode s k e => s!"states: state {s} event {k.name}: {e.message}"
  | outOfMemory u m => s!"out of memory: sections need {u} bytes, budget is {m}"

def isOutOfMemory : AssemblyError → Bool
  | outOfMemory .. => true
  | _ => false

end AssemblyError

namespace Image

def defaultMemory : Int := 16384

def nameBytes (s : String) : Bytes := Text.bytes s ++ [0]

/-- The room before the data of a global: the way to the data, the type and the name. -/
def globalHeaderSize (name : String) : Nat := 4 + 1 + name.utf8ByteSize + 1

/-- The room before the code of a function: the way to the code, the type of the result, the name
and the types of the parameters. -/
def functionHeaderSize (name : String) (params : Nat) : Nat :=
  4 + 1 + name.utf8ByteSize + 1 + params + 1

def textOf : Value → String
  | .string s | .key s => s
  | _ => ""

/-- The initial value that a global of a type is stored with. No value stands for the zero of the
type, an integer becomes a float, a lone value becomes a list, and texts serve as keys and keys as
texts. -/
def initialValue (t : Ty) (v : Value) : Value :=
  match t, v with
  | t, .void => Value.zero t
  | .float, .integer n => .float (Single.ofInt n.toInt)
  | .list, .list vs => .list vs
  | .list, v => .list [v]
  | .string, v => .string (textOf v)
  | .key, v => .key (textOf v)
  | _, v => v

/-- Appends a global to those written so far. Texts and lists go to the heap. -/
def addGlobal (done : Bytes) (heap : Heap) (g : GlobalData) :
    Except AssemblyError (Bytes × Heap) := do
  let header := globalHeaderSize g.name
  let place := done.length + header
  if g.offset ≠ place then throw (.misplacedGlobal g.name g.offset place)
  let front := done ++ intWord header ++ UInt8.ofNat g.ty.tag :: nameBytes g.name
  let v := initialValue g.ty g.value
  if g.ty.isReference then
    match heap.add v with
    | .error e => throw (.globalValue g.name e)
    | .ok (heap, handle) => return (front ++ int32 handle, heap)
  else
    return (front ++ v.inline, heap)

/-- The globals and the heap that holds their texts and lists. -/
def writeGlobals (gs : List GlobalData) : Except AssemblyError (Bytes × Heap) :=
  gs.foldlM (fun (s, h) g => addGlobal s h g) ([], {})

/-- The offsets at which parts of these lengths start when the first one starts at `start`. -/
def starts (start : Nat) : List Bytes → List Nat
  | [] => []
  | p :: ps => start :: starts (start + p.length) ps

def functionEntry (f : FunctionCode) : Except AssemblyError Bytes :=
  match f.body.lower with
  | .error e => .error (.functionCode f.name e)
  | .ok c =>
    let params := f.body.paramTypes
    .ok (intWord (functionHeaderSize f.name params.length) ++
      UInt8.ofNat f.body.result.tag :: nameBytes f.name ++
      params.map (fun t => UInt8.ofNat t.tag) ++ 0 :: c.code)

def writeFunctions (fs : List FunctionCode) : Except AssemblyError Bytes := do
  let entries ← fs.mapM functionEntry
  let table := (starts (4 + 4 * fs.length) entries).flatMap fun (o : Nat) => intWord o
  return intWord fs.length ++ table ++ entries.flatten

/-- A state: its name, the offsets and local bytes of its handlers, and their code. -/
def stateEntry (s : StateCode) : Except AssemblyError Bytes := do
  let codes ← s.events.mapM fun e =>
    match e.body.lower with
    | .error cause => .error (.handlerCode s.name e.kind cause)
    | .ok c => .ok c.code
  let front := nameBytes s.name
  let offsets := starts (front.length + 8 * s.events.length) codes
  let rows := (s.events.zip offsets).flatMap fun (e, o) =>
    intWord o ++ intWord e.body.localBytes
  return front ++ rows ++ codes.flatten

def writeStates (ss : List StateCode) : Except AssemblyError Bytes := do
  let entries ← ss.mapM stateEntry
  let offsets := starts (4 + 12 * ss.length) entries
  let table := (ss.zip offsets).flatMap fun (s, o) => intWord o ++ word64 s.eventMask
  return intWord ss.length ++ table ++ entries.flatten

/-- The sections of an image before they have a place in memory. -/
structure Sections where
  globals : Bytes
  functions : Bytes
  states : Bytes
  heap : Bytes

namespace Sections

def gfr (s : Sections) : Nat := Registers.size + s.globals.length
def sr (s : Sections) : Nat := s.gfr + s.functions.length
def hr (s : Sections) : Nat := s.sr + s.states.length

def used (s : Sections) : Nat := s.hr + s.heap.length

def bytes (s : Sections) : Bytes := s.globals ++ s.functions ++ s.states ++ s.heap

end Sections

def writeSections (p : Program) : Except AssemblyError Sections := do
  let (globals, heap) ← writeGlobals p.globals
  let functions ← writeFunctions p.functions
  let states ← writeStates p.states
  return { globals, functions, states, heap := heap.encode }

/-- The registers of an image of `memory` bytes that starts with the events of its first state. -/
def initialRegisters (p : Program) (s : Sections) (memory : Int) : Registers :=
  let events := (p.states.head?.map StateCode.eventMask).getD 0
  { vn := Registers.version
    bp := Int32.ofInt (memory - 1)
    sp := Int32.ofInt memory
    hr := Int32.ofNat s.hr
    hp := Int32.ofNat s.used
    er := events.toUInt32.toInt32
    gvr := Int32.ofNat Registers.size
    gfr := Int32.ofNat s.gfr
    sr := Int32.ofNat s.sr
    tm := Int32.ofInt memory
    ner := events }

/-- The memory budget: what is asked for if it is positive, else the default. -/
def budget (memory : Int) : Int := if memory ≤ 0 then defaultMemory else memory

/-- The image of a program in a memory of the given size. -/
def assemble (p : Program) (memory : Int) : Except AssemblyError Bytes := do
  let memory := budget memory
  let s ← writeSections p
  if memory < s.used then throw (.outOfMemory s.used memory)
  return (initialRegisters p s memory).encode ++ s.bytes ++
    List.replicate (memory.toNat - s.used) 0

end Image
end Lsl
