import Lsl.Analysis.Fault
import Lsl.Diagnostic

/-! Return paths. A sequence of statements ends when each way through it comes to a return or a
change of state. What follows is dead up to the next label, and the first dead statement of a body
is worth a warning. Functions must not change the state, and their returns must agree with their
result. -/
namespace Lsl

inductive Position where
  | voidFunction
  | valueFunction
  | handler
  /-- After the end of a sequence. -/
  | dead
deriving DecidableEq

/-- What has been found in a body so far, and whether dead code was among it. -/
structure Paths where
  diagnostics : List Diagnostic := []
  warned : Bool := false

namespace Paths

abbrev Walk := StateM Paths

def report (d : Diagnostic) : Walk Unit :=
  modify fun s => { s with diagnostics := s.diagnostics ++ [d] }

/-- Warns of dead code, once in a body. -/
def warn (pos : Pos) : Walk Unit :=
  modify fun s =>
    if s.warned then s
    else { diagnostics := s.diagnostics ++ [{ pos, kind := .deadCode, severity := .warning }]
           warned := true }

/-- Checks a return against the result of the body. Dead ones are not checked. -/
def checkReturn (pos : Pos) (hasValue : Bool) (place : Position) : Walk Unit :=
  match place with
  | .valueFunction => if hasValue then pure () else report { pos, kind := .invalidVoidReturn }
  | .voidFunction | .handler =>
    if hasValue then report { pos, kind := .invalidValueReturn } else pure ()
  | .dead => pure ()

mutual

/-- Whether each way through a statement ends the body. The body itself stands at `owner`. -/
def stmt (owner : Position) (place : Position) : Stmt → Walk Bool
  | .block _ _ ss => stmts owner place false ss
  | .ret p v => do
    checkReturn p (!v.isMissing) place
    return true
  | .goto p s _ => do
    if owner = .handler then return true
    report { pos := p, kind := .stateChangeInFunction, message := s!"state {s}" }
    return false
  | .ifThen _ _ _ t _ e => do
    let t ← stmt owner place t
    if e.isMissing then return false
    let e ← stmt owner place e
    return t && e
  | .while _ _ _ b => do
    let _ ← stmt owner place b
    return false
  | .for _ _ _ _ _ b => do
    let _ ← stmt owner place b
    return false
  | .doWhile _ _ b _ => stmt owner place b
  | .missing | .expr .. | .decl .. | .jump .. | .label .. | .empty _ => return false

/-- Whether each way through a sequence ends the body. The walk stops at an error. -/
def stmts (owner : Position) (place : Position) (ended : Bool) : List Stmt → Walk Bool
  | [] => return ended
  | s :: ss => do
    if Diagnostic.failed (← get).diagnostics then return ended
    match s with
    | .label .. => stmts owner place false ss
    | _ => do
      if ended && place ≠ .dead then warn s.pos
      let here := if ended then .dead else place
      let ends ← stmt owner here s
      stmts owner place (ended || ends) ss

end

/-- Walks a body: whether each way through it ends, and what was found. -/
def run (owner : Position) (body : Option Block) : Except Fault (Bool × List Diagnostic) := do
  let b ← Fault.missing.need body
  let (ends, s) := (stmts owner owner false b.stmts).run {}
  return (ends, s.diagnostics)

end Paths

namespace Script

/-- The problems on the paths of a function, which must return a value on each if it has one. -/
def functionPaths (f : Function) : Except Fault (List Diagnostic) := do
  if f.result = .void then return (← Paths.run .voidFunction f.body).2
  let (ends, ds) ← Paths.run .valueFunction f.body
  if ends || Diagnostic.failed ds then return ds
  return ds ++ [{ pos := f.pos, kind := .noReturn, message := f.name }]

def handlerPaths (h : Option Handler) : Except Fault (List Diagnostic) := do
  let h ← Fault.missing.need h
  return (← Paths.run .handler h.body).2

/-- Collects problems from parts up to the first error. -/
def untilError (step : α → Except Fault (List Diagnostic)) : List α → Except Fault (List Diagnostic)
  | [] => .ok []
  | a :: as => do
    let ds ← step a
    if Diagnostic.failed ds then return ds
    return ds ++ (← untilError step as)

def statePaths (s : Option State) : Except Fault (List Diagnostic) := do
  let s ← Fault.missing.need s
  untilError handlerPaths s.events

def paths (s : Script) : Except Fault (List Diagnostic) := do
  let ds ← untilError functionPaths s.functions
  if Diagnostic.failed ds then return ds
  return ds ++ (← untilError statePaths s.states)

end Script
end Lsl
