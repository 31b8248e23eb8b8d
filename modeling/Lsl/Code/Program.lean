import Lsl.Code.Instr
import Lsl.Language.Event

/-! A compiled script: globals with their initial values, functions, and states with the handlers of
their events. Both outputs are made from it. -/
namespace Lsl

structure Slot where
  name : String
  ty : Ty
deriving DecidableEq

/-- The code of a function or handler, with the variables of its frame. -/
structure Body where
  result : Ty
  params : List Slot
  locals : List Slot
  code : List Instr

namespace Body

def paramTypes (b : Body) : List Ty := b.params.map (·.ty)

def localTypes (b : Body) : List Ty := b.locals.map (·.ty)

def paramBytes (b : Body) : Nat := Ty.frameSize b.paramTypes

def localBytes (b : Body) : Nat := Ty.frameSize b.localTypes

/-- One line for each instruction; labels stand at the margin. -/
def listing (b : Body) : String :=
  String.join (b.code.map fun
    | .label l => "L" ++ toString l ++ ":\n"
    | i => "\t" ++ i.text ++ "\n")

end Body

/-- A global variable and its initial value. The offset is counted from the start of the globals. -/
structure GlobalData where
  name : String
  ty : Ty
  offset : Int
  value : Value

structure FunctionCode where
  name : String
  index : Int
  body : Body

structure HandlerCode where
  kind : EventKind
  body : Body

/-- A state and its handlers, ordered by event. -/
structure StateCode where
  name : String
  index : Int
  events : List HandlerCode

def StateCode.eventMask (s : StateCode) : UInt64 :=
  s.events.foldl (fun m e => m ||| e.kind.mask) 0

structure Program where
  globals : List GlobalData
  functions : List FunctionCode
  states : List StateCode

namespace Program

def globalLine (g : GlobalData) : String :=
  s!"global {g.ty.name} {g.name} @{g.offset} = {g.value.text}\n"

def functionLines (f : FunctionCode) : String :=
  s!"function {f.index} {f.body.result.name} {f.name}({Ty.letters f.body.paramTypes})\n" ++
    f.body.listing

def handlerLines (h : HandlerCode) : String :=
  s!" event {h.kind.name}({Ty.letters h.body.paramTypes})\n" ++ h.body.listing

def stateLines (s : StateCode) : String :=
  s!"state {s.index} {s.name}\n" ++ String.join (s.events.map handlerLines)

def listing (p : Program) : String :=
  String.join (p.globals.map globalLine) ++ String.join (p.functions.map functionLines) ++
    String.join (p.states.map stateLines)

end Program
end Lsl
