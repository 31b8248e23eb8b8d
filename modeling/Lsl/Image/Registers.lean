import Lsl.Bytes

/-! The registers at the start of a memory image: nineteen words, then three event masks. -/
namespace Lsl

structure Registers where
  /-- Instruction pointer. -/
  ip : Int32 := 0
  /-- Version of the format. -/
  vn : Int32 := 0
  /-- Base pointer. -/
  bp : Int32 := 0
  /-- Stack pointer. -/
  sp : Int32 := 0
  /-- Start of the heap. -/
  hr : Int32 := 0
  /-- End of the heap. -/
  hp : Int32 := 0
  /-- Current state. -/
  cs : Int32 := 0
  /-- Next state. -/
  ns : Int32 := 0
  /-- Current events. -/
  ce : Int32 := 0
  /-- Event being handled. -/
  ie : Int32 := 0
  /-- Events of the current state. -/
  er : Int32 := 0
  /-- Fault. -/
  fr : Int32 := 0
  /-- Sleep. -/
  slr : Int32 := 0
  /-- Start of the globals. -/
  gvr : Int32 := 0
  /-- Start of the functions. -/
  gfr : Int32 := 0
  /-- Start of the states. -/
  sr : Int32 := 0
  /-- Size of the memory. -/
  tm : Int32 := 0
  /-- Parameter. -/
  pr : Int32 := 0
  /-- Energy supply. -/
  esr : Int32 := 0
  /-- Current events, 64 bits. -/
  nce : UInt64 := 0
  /-- Event being handled, 64 bits. -/
  nie : UInt64 := 0
  /-- Events of the current state, 64 bits. -/
  ner : UInt64 := 0
deriving DecidableEq

namespace Registers

def version : Int32 := 0x0200

def size : Nat := 100

def words (r : Registers) : List Int32 :=
  [r.ip, r.vn, r.bp, r.sp, r.hr, r.hp, r.cs, r.ns, r.ce, r.ie, r.er, r.fr, r.slr, r.gvr, r.gfr,
    r.sr, r.tm, r.pr, r.esr]

def masks (r : Registers) : List UInt64 := [r.nce, r.nie, r.ner]

def encode (r : Registers) : Bytes := r.words.flatMap int32 ++ r.masks.flatMap word64

end Registers
end Lsl
