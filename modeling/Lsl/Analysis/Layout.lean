import Lsl.Analysis.Fault
import Lsl.Image.Write
import Lsl.Script.Basic

/-! Places of variables. A frame holds the parameters in order and then the locals in the order of
the source; globals stand where the image puts their data. -/
namespace Lsl

namespace Stmt

mutual

def locals : Stmt → List Slot
  | block _ _ ss => localsAll ss
  | decl _ name ty _ _ => [⟨name, ty⟩]
  | ifThen _ _ _ t _ e => locals t ++ locals e
  | .while _ _ _ b => locals b
  | doWhile _ _ b _ => locals b
  | .for _ _ _ _ _ b => locals b
  | missing | expr .. | jump .. | label .. | ret .. | goto .. | empty _ => []

def localsAll : List Stmt → List Slot
  | [] => []
  | s :: ss => locals s ++ localsAll ss

end

mutual

def localsBound : Stmt → Bool
  | block _ _ ss => localsBoundAll ss
  | decl _ _ _ _ entry => entry.isSome
  | ifThen _ _ _ t _ e => localsBound t && localsBound e
  | .while _ _ _ b => localsBound b
  | doWhile _ _ b _ => localsBound b
  | .for _ _ _ _ _ b => localsBound b
  | missing | expr .. | jump .. | label .. | ret .. | goto .. | empty _ => true

def localsBoundAll : List Stmt → Bool
  | [] => true
  | s :: ss => localsBound s && localsBoundAll ss

end

end Stmt

def paramSlots (ps : List Param) : List Slot := ps.map fun p => ⟨p.name, p.ty⟩

def frameTypes (ps : List Param) (b : Block) : List Ty :=
  paramTypes ps ++ (Stmt.localsAll b.stmts).map (·.ty)

/-- A frame in which variables are placed, and the offset that each of them got. -/
structure Placing where
  size : Nat := 0
  places : List ((Slot × Option Symbol) × Nat) := []

/-- Places a variable where the frame ends so far. -/
def Placing.add (f : Placing) (v : Slot × Option Symbol) : Placing :=
  ⟨f.size + v.1.ty.size, f.places ++ [(v, f.size)]⟩

namespace Stmt

mutual

def place (f : Placing) : Stmt → Placing
  | block _ _ ss => placeAll f ss
  | decl _ name ty _ entry => f.add (⟨name, ty⟩, entry)
  | ifThen _ _ _ t _ e => place (place f t) e
  | .while _ _ _ b => place f b
  | doWhile _ _ b _ => place f b
  | .for _ _ _ _ _ b => place f b
  | missing | expr .. | jump .. | label .. | ret .. | goto .. | empty _ => f

def placeAll (f : Placing) : List Stmt → Placing
  | [] => f
  | s :: ss => placeAll (place f s) ss

end

end Stmt

def placeBody (ps : List Param) (b : Block) : Placing :=
  Stmt.placeAll (ps.foldl (fun f p => f.add (⟨p.name, p.ty⟩, p.entry)) {}) b.stmts

def slotOffset (frame : List Ty) (index : Nat) : Nat := Ty.frameSize (frame.take index)

/-- The places of globals, of which the first one's header starts at `start`. -/
def globalOffsets (start : Nat) : List GlobalVar → List Nat
  | [] => []
  | v :: vs =>
    let place := start + Image.globalHeaderSize v.name
    place :: globalOffsets (place + v.ty.size) vs

namespace Script

/-- Fails unless every variable of a body has its symbol. -/
def requireFrame (entry : Option Symbol) (ps : List Param) (body : Option Block) :
    Except Fault Unit := do
  let b ← Fault.missing.need body
  if entry.isSome && ps.all (·.entry.isSome) && Stmt.localsBoundAll b.stmts then return ()
  throw .unbound

def requireGlobal : Global → Except Fault Unit
  | .missing => .ok ()
  | .var v => do let _ ← Fault.unbound.need v.entry
  | .function f => requireFrame f.entry f.params f.body

def requireHandler (h : Option Handler) : Except Fault Unit := do
  let h ← Fault.missing.need h
  requireFrame h.entry h.params h.body

def requireState (s : Option State) : Except Fault Unit := do
  let s ← Fault.missing.need s
  let _ ← Fault.unbound.need s.entry
  s.events.forM requireHandler

/-- Fails unless everything that is given a place has its symbol. -/
def requireEntries (s : Script) : Except Fault Unit := do
  s.globals.forM requireGlobal
  s.states.forM requireState

end Script
end Lsl
