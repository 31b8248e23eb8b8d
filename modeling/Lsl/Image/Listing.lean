import Lsl.Image.Read

/-! Assembly listings of images. Names are shown byte by byte, so that a listing is bytes too. -/
namespace Lsl.Image

def floatIn (data : Bytes) (place : Nat) : Single :=
  ⟨word32OfBytes ((data.drop (4 * place)).take 4)⟩

/-- The initial value of a global. Texts are found in the heap; lists show their handle. -/
def globalText (img : Image) (g : GlobalEntry) : String :=
  let number := (int32OfBytes (g.data.take 4)).toInt
  let floats (n : Nat) :=
    "<" ++ ", ".intercalate ((List.range n).map fun i => (floatIn g.data i).general) ++ ">"
  match g.ty with
  | .integer => toString number
  | .float => (floatIn g.data 0).general
  | .vector => floats 3
  | .rotation => floats 4
  | .string | .key =>
    match img.heapText? (Int32.ofInt number) with
    | some s => Text.quoteBytes s
    | none => s!"#{number}"
  | _ => s!"#{number}"

def globalLine (img : Image) (g : GlobalEntry) : Bytes :=
  Text.bytes s!"{Text.upperHex 4 (img.registers.gvr.toInt + g.offset)}  {g.ty.name} " ++ g.name ++
    Text.bytes s!" = {img.globalText g}\n"

def functionLines (f : FunctionEntry) : Bytes :=
  Text.bytes s!"\n; function {f.result.name} " ++ f.name ++
    Text.bytes s!"({Ty.letters f.params})\n" ++
    Text.bytes (Instruction.listing f.code f.codeStart)

def handlerLines (h : HandlerEntry) : Bytes :=
  Text.bytes s!"; event {h.kind.name} locals={h.localBytes}\n" ++
    Text.bytes (Instruction.listing h.code h.codeStart)

def stateLines (s : StateEntry) : Bytes :=
  Text.bytes "\n; state " ++ s.name ++
    Text.bytes s!" events={Text.upperHex 16 s.events.toNat}\n" ++ s.handlers.flatMap handlerLines

def heapLine (b : HeapBlock) : Bytes :=
  Text.bytes (s!"#{Text.padRight 4 (toString b.handle.toInt)} {b.ty.name} refs={b.refs.toNat}" ++
    s!" size={b.data.length}\n")

/-- The lines of a part under its title; an empty part is left out. -/
def titled (title : String) (lines : List Bytes) : Bytes :=
  if lines.isEmpty then [] else Text.bytes s!"\n; {title}\n" ++ lines.flatten

def listing (img : Image) : Bytes :=
  let r := img.registers
  let x (n : Int32) := Text.upperHex 4 n.toInt
  Text.bytes (s!"; image v{x r.vn}, {r.tm.toInt} bytes\n" ++
    s!"; GVR {x r.gvr}  GFR {x r.gfr}  SR {x r.sr}  HR {x r.hr}  HP {x r.hp}  SP {x r.sp}\n") ++
    titled "globals" (img.globals.map img.globalLine) ++
    img.functions.flatMap functionLines ++
    img.states.flatMap stateLines ++
    titled "heap" (img.heap.map heapLine)

end Lsl.Image
