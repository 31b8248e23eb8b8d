import Lsl.Analysis.Layout

/-! Listings of the names that a script declares, scope by scope. -/
namespace Lsl

/-- What gives symbols their places in a listing. -/
structure Placement where
  /-- The declaration runs whose symbols have places. -/
  placed : List Nat
  /-- The places of the globals. -/
  globals : List Nat
  /-- The variables of the frame that is listed. -/
  frame : List Ty := []

namespace Placement

/-- A symbol with its place. Functions and events that have places and no parameters are listed
without a list of them. -/
def place (p : Placement) (s : Symbol) : Symbol :=
  if !p.placed.contains s.round then s
  else match s.kind with
    | .global => { s with offset := p.globals.getD s.index 0 }
    | .local => { s with offset := slotOffset p.frame s.index }
    | .function | .event => { s with params := s.params.filter (!·.isEmpty) }
    | _ => s

def listing (p : Placement) (indent : String) (skipLibrary : Bool) (s : Scope) : String :=
  Scope.listing ⟨s.symbols.map p.place⟩ indent skipLibrary

end Placement

namespace Stmt

mutual

/-- The lines of the blocks in a statement, those of inner blocks farther in. -/
def scopeListing (p : Placement) (indent : String) : Stmt → String
  | block _ scope ss =>
    match scope with
    | some s => p.listing indent false s ++ scopeListings p (indent ++ "    ") ss
    | none => scopeListings p indent ss
  | ifThen _ _ _ t _ e => scopeListing p indent t ++ scopeListing p indent e
  | .while _ _ _ b => scopeListing p indent b
  | doWhile _ _ b _ => scopeListing p indent b
  | .for _ _ _ _ _ b => scopeListing p indent b
  | missing | expr .. | decl .. | jump .. | label .. | ret .. | goto .. | empty _ => ""

def scopeListings (p : Placement) (indent : String) : List Stmt → String
  | [] => ""
  | s :: ss => scopeListing p indent s ++ scopeListings p indent ss

end

end Stmt

namespace Script

def placement (placed : List Nat) (s : Script) : Placement :=
  { placed, globals := globalOffsets 0 s.globalVars }

def bodySymbols (p : Placement) (title : String) (params : List Param) (body : Option Block) :
    Except Fault String := do
  let b ← Fault.missing.need body
  return s!"; {title}\n" ++
    Stmt.scopeListing { p with frame := frameTypes params b } "" (.block b.pos b.scope b.stmts)

def handlerSymbols (p : Placement) (state : String) (h : Option Handler) : Except Fault String := do
  let h ← Fault.missing.need h
  bodySymbols p s!"{state}.{h.name}" h.params h.body

def stateSymbols (p : Placement) (s : Option State) : Except Fault String := do
  let s ← Fault.missing.need s
  return String.join (← s.events.mapM (handlerSymbols p s.name))

/-- The names of a script: its globals, then those of each function and handler. The names of the
library are left out. Before declaration there are none. -/
def symbols (placed : List Nat) (s : Script) : Except Fault String :=
  match s.scope with
  | none => .ok ""
  | some scope => do
    let p := s.placement placed
    let functions ← s.functions.mapM fun f =>
      bodySymbols p s!"function {f.name}" f.params f.body
    let states ← s.states.mapM (stateSymbols p)
    return "; globals\n" ++ p.listing "" true scope ++ String.join functions ++ String.join states

/-- The names of the outermost scope, those of the library included. -/
def outermost (placed : List Nat) (s : Script) : Option String :=
  s.scope.map fun scope => (s.placement placed).listing "" false scope

end Script
end Lsl
