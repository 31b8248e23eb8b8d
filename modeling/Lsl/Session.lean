import Lsl.Analysis.Declaration
import Lsl.Analysis.ReturnPaths
import Lsl.Analysis.Typing
import Lsl.Emission
import Lsl.Script.Symbols

/-! Work on one script: the analyses run one after the other over the same tree, each only while no
error has been found. -/
namespace Lsl

/-- A script under work, and what the analyses have found and given out so far. -/
structure Session where
  script : Script
  library : Library
  privileged : Bool
  diagnostics : List Diagnostic := []
  labels : Labels := {}
  /-- How often names have been declared. -/
  round : Nat := 0
  /-- The declaration runs whose symbols have places. -/
  placed : List Nat := []
  constants : Constants := []

inductive Analysis where
  | declare
  | resolve
  | check
  | paths
  | place
deriving DecidableEq

def Analysis.all : List Analysis := [declare, resolve, check, paths, place]

namespace Session

def failed (s : Session) : Bool := Diagnostic.failed s.diagnostics

def report (s : Session) (ds : List Diagnostic) : Session :=
  { s with diagnostics := s.diagnostics ++ ds }

def perform (s : Session) : Analysis → Except Fault Session
  | .declare =>
    let round := s.round + 1
    let (script, ds) := s.script.declare (s.library.visible s.privileged) round
    .ok ({ s with script, round }.report ds)
  | .resolve => do
    let (script, ds) ← s.script.resolve
    return { s with script }.report ds
  | .check => do
    let ((script, constants), ds) ← s.script.check s.constants
    return { s with script, constants }.report ds
  | .paths => do return s.report (← s.script.paths)
  | .place => do
    s.script.requireEntries
    return { s with placed := s.round :: s.placed }

def run (s : Session) (a : Analysis) : Except Fault Session :=
  if s.failed then .ok s else s.perform a

def analyze (s : Session) : Except Fault Session := Analysis.all.foldlM run s

/-- The program of the script, unless an error has been found. -/
def emit (s : Session) : Except Fault (Session × Option Program) :=
  if s.failed then .ok (s, none)
  else do
    let (p, labels) ← (s.script.emit s.placed s.constants).run s.labels
    return ({ s with labels }, some p)

/-- Forgets what has been found and starts the numbers of labels anew. Label statements keep
theirs. -/
def reset (s : Session) : Session :=
  { s with diagnostics := [], labels := { s.labels with last := 0 } }

def newLabel (s : Session) : Session × Label :=
  let last := s.labels.last + 1
  ({ s with labels := { s.labels with last } }, last)

def symbols (s : Session) : Except Fault String := s.script.symbols s.placed

end Session
end Lsl
