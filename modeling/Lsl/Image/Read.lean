import Lsl.Image.Registers
import Lsl.Language.Event
import Lsl.Machine.Instruction

/-! Reading memory images. Registers, tables and headers hold offsets of any sign and size, so that
every access checks them first. A read that no check has admitted is reported as `outside`; the
walk over the globals follows offsets that may lead back and is then `endless`. -/
namespace Lsl

inductive Malformed where
  | tooShort (size : Nat)
  | version (vn : Int32)
  | sectionOrder
  | word (offset : Int)
  | long (offset : Int)
  | unterminated (offset : Int)
  | range (low high : Int)
  | globalCut (offset : Int)
  | globalType (name : Bytes) (t : Ty)
  | functionCount (n : Int)
  | functionHeader (place : Nat)
  | stateCount (n : Int)
  | heapBlock (offset : Int)
  | noSentinel

inductive ReadError where
  | malformed (cause : Malformed)
  /-- An unchecked access beside the data. -/
  | outside (offset : Int)
  /-- The globals lead in a circle. -/
  | endless

namespace Malformed

/-- The complaint; names are shown byte by byte. -/
def message (m : Malformed) : Bytes :=
  let text := Text.bytes
  text "malformed image: " ++ match m with
    | tooShort n => text s!"{n} bytes is shorter than the header"
    | version v => text s!"version 0x{Text.upperHex 4 v.toInt}"
    | sectionOrder => text "section registers out of order"
    | word o => text s!"word at {o} out of range"
    | long o => text s!"long at {o} out of range"
    | unterminated o => text s!"unterminated string at {o}"
    | range a b => text s!"range {a}..{b}"
    | globalCut o => text s!"global at {o}"
    | globalType n t => text "global " ++ n ++ text s!" has type {t.name}"
    | functionCount n => text s!"function count {n}"
    | functionHeader i => text s!"function {i} header"
    | stateCount n => text s!"state count {n}"
    | heapBlock o => text s!"heap block at {o}"
    | noSentinel => text "heap has no sentinel"

end Malformed

/-- A global as stored. Its offset is counted from the start of the globals. -/
structure GlobalEntry where
  name : Bytes
  ty : Ty
  offset : Int
  data : Bytes

/-- A function as stored. Its offset is counted from the start of the functions. -/
structure FunctionEntry where
  name : Bytes
  result : Ty
  params : List Ty
  offset : Int
  codeStart : Int
  code : Bytes

/-- A handler as stored. Its offset is counted from the start of its state. -/
structure HandlerEntry where
  kind : EventKind
  offset : Int
  localBytes : Int
  codeStart : Int
  code : Bytes

/-- A state as stored. Its offset is counted from the start of the states. -/
structure StateEntry where
  name : Bytes
  offset : Int
  events : UInt64
  handlers : List HandlerEntry

structure HeapBlock where
  handle : Int32
  ty : Ty
  refs : UInt16
  data : Bytes

structure Image where
  registers : Registers
  globals : List GlobalEntry
  functions : List FunctionEntry
  states : List StateEntry
  heap : List HeapBlock

namespace Image

abbrev Reading := Except ReadError

def malformed (m : Malformed) : Reading α := .error (.malformed m)

def byteAt (data : Array UInt8) (offset : Int) : Reading UInt8 :=
  if offset < 0 then .error (.outside offset)
  else match data[offset.toNat]? with
    | some b => .ok b
    | none => .error (.outside offset)

def slice (data : Array UInt8) (low high : Int) : Reading Bytes :=
  if low < 0 ∨ data.size < high ∨ high < low then malformed (.range low high)
  else .ok (data.extract low.toNat high.toNat).toList

def wordAt (data : Array UInt8) (offset : Int) : Reading Int :=
  if offset < 0 ∨ data.size < offset + 4 then malformed (.word offset)
  else .ok (int32OfBytes (data.extract offset.toNat (offset.toNat + 4)).toList).toInt

def longAt (data : Array UInt8) (offset : Int) : Reading UInt64 :=
  if offset < 0 ∨ data.size < offset + 8 then malformed (.long offset)
  else .ok (UInt64.ofNat (natOfBytes (data.extract offset.toNat (offset.toNat + 8)).toList))

/-- The bytes from an offset to the next NUL, and the offset after it. -/
def stringAt (data : Array UInt8) (offset : Int) : Reading (Bytes × Int) :=
  if data.size ≤ offset then malformed (.unterminated offset)
  else if offset < 0 then .error (.outside offset)
  else
    let rest := (data.extract offset.toNat data.size).toList
    let name := rest.takeWhile (· != 0)
    if name.length = rest.length then malformed (.unterminated offset)
    else .ok (name, offset + name.length + 1)

def readRegisters (data : Array UInt8) : Reading Registers := do
  let word (o : Nat) : Reading Int32 := do return Int32.ofInt (← wordAt data o)
  return {
    ip := ← word 0, vn := ← word 4, bp := ← word 8, sp := ← word 12, hr := ← word 16
    hp := ← word 20, cs := ← word 24, ns := ← word 28, ce := ← word 32, ie := ← word 36
    er := ← word 40, fr := ← word 44, slr := ← word 48, gvr := ← word 52, gfr := ← word 56
    sr := ← word 60, tm := ← word 64, pr := ← word 68, esr := ← word 72
    nce := ← longAt data 76, nie := ← longAt data 84, ner := ← longAt data 92 }

def globalAt (data : Array UInt8) (start stop pos : Int) : Reading (GlobalEntry × Int) := do
  let header ← wordAt data pos
  if stop ≤ pos + 4 then malformed (.globalCut pos)
  let t := Ty.ofTag (← byteAt data (pos + 4)).toNat
  let (name, _) ← stringAt data (pos + 5)
  let place := pos + header
  if t.size = 0 then malformed (.globalType name t)
  let content ← slice data place (place + t.size)
  return (⟨name, t, place - start, content⟩, place + t.size)

/-- The globals from a position on. A walk that passes more positions than there are repeats one
of them. -/
def readGlobals (data : Array UInt8) (start stop : Int) : Nat → Int → Reading (List GlobalEntry)
  | fuel, pos =>
    if stop ≤ pos then .ok []
    else match fuel with
      | 0 => .error .endless
      | fuel + 1 => do
        let (g, next) ← globalAt data start stop pos
        return g :: (← readGlobals data start stop fuel next)

/-- The types up to the next zero byte or the end of the data. -/
def typesFrom (data : Array UInt8) (offset : Int) : List Ty :=
  ((data.extract offset.toNat data.size).toList.takeWhile (· != 0)).map fun b => Ty.ofTag b.toNat

/-- The function with a number; its code ends at `next`, counted like its offset. -/
def functionAt (data : Array UInt8) (start stop : Int) (place : Nat) (offset next : Int) :
    Reading FunctionEntry := do
  let entry := start + offset
  let toCode ← wordAt data entry
  if stop ≤ entry + 4 then malformed (.functionHeader place)
  let result := Ty.ofTag (← byteAt data (entry + 4)).toNat
  let (name, pos) ← stringAt data (entry + 5)
  let codeStart := entry + toCode
  let code ← slice data codeStart (start + next)
  return { name, result, params := typesFrom data pos, offset, codeStart, code }

def readFunctions (data : Array UInt8) (start stop : Int) : Reading (List FunctionEntry) := do
  let count ← wordAt data start
  if count < 0 ∨ stop < start + 4 + count * 4 then malformed (.functionCount count)
  let places := List.range count.toNat
  let offsets ← places.mapM fun (i : Nat) => wordAt data (start + 4 + i * 4)
  let ends := offsets.drop 1 ++ [stop - start]
  (places.zip (offsets.zip ends)).mapM fun (i, o, next) => functionAt data start stop i o next

/-- The numbers of the bits set in a mask, in ascending order. -/
def bitsOf (mask : UInt64) : List Nat := (List.range 64).filter mask.toNat.testBit

/-- A handler before its code is cut out: kind, offset and local bytes. -/
def handlerRow (data : Array UInt8) (pos : Int) (kind : Nat) : Reading (EventKind × Int × Int) := do
  let offset ← wordAt data pos
  let localBytes ← wordAt data (pos + 4)
  return (⟨UInt8.ofNat kind⟩, offset, localBytes)

/-- The state at an offset, whose last handler ends at `stop`. -/
def stateAt (data : Array UInt8) (start offset stop : Int) (events : UInt64) :
    Reading StateEntry := do
  let base := start + offset
  let (name, pos) ← stringAt data base
  let kinds := bitsOf events
  let rows ← (kinds.zip (List.range kinds.length)).mapM fun (k, i) =>
    handlerRow data (pos + 8 * i) k
  let ends := (rows.drop 1).map (fun (_, o, _) => base + o) ++ [stop]
  let handlers ← (rows.zip ends).mapM fun ((kind, o, localBytes), codeEnd) => do
    return { kind, offset := o, localBytes, codeStart := base + o,
             code := ← slice data (base + o) codeEnd : HandlerEntry }
  return { name, offset, events, handlers }

def readStates (data : Array UInt8) (start stop : Int) : Reading (List StateEntry) := do
  let count ← wordAt data start
  if count < 0 ∨ stop < start + 4 + count * 12 then malformed (.stateCount count)
  let rows ← (List.range count.toNat).mapM fun (i : Nat) => do
    let row := start + 4 + i * 12
    return (← wordAt data row, ← longAt data (row + 4))
  let ends := (rows.drop 1).map (fun (o, _) => start + o) ++ [stop]
  (rows.zip ends).mapM fun ((o, events), next) => stateAt data start o next events

def readHeap (data : Array UInt8) (start stop : Int) : Nat → Int → Reading (List HeapBlock)
  | fuel, pos =>
    if stop ≤ pos then malformed .noSentinel
    else match fuel with
      | 0 => .error .endless
      | fuel + 1 => do
        let size ← wordAt data pos
        if stop < pos + 7 then malformed (.heapBlock pos)
        let t := Ty.ofTag (← byteAt data (pos + 4)).toNat
        let high ← byteAt data (pos + 5)
        let low ← byteAt data (pos + 6)
        if size = 0 ∧ t = .void then return []
        let content ← slice data (pos + 7) (pos + 7 + size)
        let b : HeapBlock :=
          { handle := Int32.ofInt (pos - start + 1), ty := t,
            refs := UInt16.ofNat (high.toNat * 256 + low.toNat), data := content }
        return b :: (← readHeap data start stop fuel (pos + 7 + size))

/-- Whether the sections follow each other inside the data. -/
def sectionsOrdered (r : Registers) (size : Nat) : Bool :=
  let marks := [(Registers.size : Int), r.gvr.toInt, r.gfr.toInt, r.sr.toInt, r.hr.toInt, r.hp.toInt,
    size]
  (marks.zip (marks.drop 1)).all fun (a, b) => a ≤ b

def read (bytes : Bytes) : Reading Image := do
  let data := bytes.toArray
  if data.size < Registers.size then malformed (.tooShort data.size)
  let r ← readRegisters data
  if r.vn ≠ Registers.version then malformed (.version r.vn)
  if !sectionsOrdered r data.size then malformed .sectionOrder
  let gvr := r.gvr.toInt
  let gfr := r.gfr.toInt
  let sr := r.sr.toInt
  let hr := r.hr.toInt
  let hp := r.hp.toInt
  let globals ← readGlobals data gvr gfr (gfr.toNat + 1) gvr
  let functions ← readFunctions data gfr sr
  let states ← readStates data sr hr
  let heap ← readHeap data hr hp (hp.toNat + 1) hr
  return { registers := r, globals, functions, states, heap }

def function? (img : Image) (name : String) : Option FunctionEntry :=
  img.functions.find? (·.name == Text.bytes name)

def heapText? (img : Image) (handle : Int32) : Option Bytes :=
  (img.heap.find? fun b =>
    b.handle == handle && (b.ty == .string || b.ty == .key) && !b.data.isEmpty).map
    fun b => b.data.dropLast

end Image
end Lsl
