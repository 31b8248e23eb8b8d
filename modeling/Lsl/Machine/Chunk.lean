import Lsl.Code.Instr
import Lsl.Machine.Instruction

/-! Code under construction. Bytes are only appended; a jump leaves room for its displacement and
is remembered with the label it goes to until the labels are known. -/
namespace Lsl

/-- A jump that waits for its label. Its displacement ends at `site`. -/
structure PendingJump where
  label : Label
  site : Int
deriving DecidableEq

/-- Code with its labels and waiting jumps. The newest definition of a label stands first. -/
structure Chunk where
  code : Bytes := []
  labels : List (Label × Int) := []
  jumps : List PendingJump := []

inductive ChunkError where
  | undefinedLabel (label : Label) (site : Int)
  | pendingJumps (count : Nat)
deriving DecidableEq

def ChunkError.message : ChunkError → String
  | undefinedLabel l site => s!"jump to undefined label: L{l} at offset {site}"
  | pendingJumps n => s!"chunk has unconnected jumps: {n} pending"

namespace Chunk

def size (c : Chunk) : Nat := c.code.length

def pending (c : Chunk) : Nat := c.jumps.length

def append (c : Chunk) (bs : Bytes) : Chunk := { c with code := c.code ++ bs }

def emit (c : Chunk) (op : Opcode) (operand : Operand) : Chunk :=
  c.append (op.byte :: operand.encode)

def appendString (c : Chunk) (s : String) : Chunk := c.append (Text.bytes s ++ [0])

/-- Bytes with those from `offset` on replaced, if the replacement lies inside. -/
def overwrite (code : Bytes) (offset : Int) (bs : Bytes) : Bytes :=
  if 0 ≤ offset ∧ offset + bs.length ≤ code.length then
    code.take offset.toNat ++ bs ++ code.drop (offset.toNat + bs.length)
  else code

def patch (c : Chunk) (offset : Int) (n : Int32) : Chunk :=
  { c with code := overwrite c.code offset (int32 n) }

def defineAt (c : Chunk) (l : Label) (offset : Int) : Chunk :=
  { c with labels := (l, offset) :: c.labels }

def define (c : Chunk) (l : Label) : Chunk := c.defineAt l c.size

def labelOffset? (c : Chunk) (l : Label) : Option Int := c.labels.lookup l

/-- Remembers a jump whose displacement ends at `site`. -/
def await (c : Chunk) (l : Label) (site : Int) : Chunk :=
  { c with jumps := c.jumps ++ [⟨l, site⟩] }

/-- Appends a jump with an open displacement; the unconditional one has no type tags. -/
def emitJump (c : Chunk) (op : Opcode) (types : UInt8) (l : Label) : Chunk :=
  let operand := if op = .jump then .int 0 else .typedJump types 0
  let c := c.emit op operand
  c.await l c.size

/-- Writes the displacements of jumps into code, up to the first whose label is missing. -/
def resolve (labels : List (Label × Int)) :
    List PendingJump → Bytes → Bytes × Option ChunkError
  | [], code => (code, none)
  | j :: js, code =>
    match labels.lookup j.label with
    | none => (code, some (.undefinedLabel j.label j.site))
    | some goal =>
      resolve labels js (overwrite code (j.site - 4) (intWord (goal - j.site)))

/-- Writes all displacements. If a label is missing, the jumps before it are written and all keep
waiting. -/
def connect (c : Chunk) : Chunk × Option ChunkError :=
  match resolve c.labels c.jumps c.code with
  | (code, none) => ({ c with code, jumps := [] }, none)
  | (code, some e) => ({ c with code }, some e)

/-- Appends the code of another chunk, which must have no jump that waits. -/
def merge (c other : Chunk) : Except ChunkError Chunk :=
  if other.jumps.isEmpty then .ok (c.append other.code)
  else .error (.pendingJumps other.pending)

def listing (c : Chunk) (title : String) : String :=
  (if title = "" then "" else s!"; === {title} ===\n") ++
    (if c.pending = 0 then "" else s!"; {c.pending} unconnected jumps\n") ++
    Instruction.listing c.code 0

end Chunk
end Lsl
