import Lsl.Assembly.Class
import Lsl.Library.Builtin
import Lsl.Session

/-! Compilation: the analyses, the program, and one of two outputs made from it, a memory image or
an assembly text. -/
namespace Lsl

inductive Backend where
  /-- An image in a memory of the given size. -/
  | image (memory : Int)
  | assembly
deriving DecidableEq

inductive BackendError where
  | image (cause : AssemblyError)
  | assembly (cause : Assembly.ClassError)

namespace BackendError

def message : BackendError → String
  | image e => e.message
  | assembly e => e.message

/-- Whether the program is right and only the memory is too small. -/
def isOutOfMemory : BackendError → Bool
  | image e => e.isOutOfMemory
  | assembly _ => false

end BackendError

namespace Backend

def name : Backend → String
  | image _ => "lso"
  | assembly => "il"

def emit (b : Backend) (p : Program) : Except BackendError Bytes :=
  match b with
  | image memory => (Image.assemble p memory).mapError .image
  | assembly => ((Assembly.generate p).map Text.bytes).mapError .assembly

end Backend

structure CompileOptions where
  /-- The library, if not the usual one. -/
  library : Option Library := none
  privileged : Bool := false
  /-- The memory of an image, if no output is chosen. -/
  memory : Int := 0
  /-- The output, if not an image. -/
  backend : Option Backend := none

namespace CompileOptions

def theLibrary (o : CompileOptions) : Library := o.library.getD .builtin

def theBackend (o : CompileOptions) : Backend := o.backend.getD (.image o.memory)

end CompileOptions

structure Compiled where
  session : Session
  program : Program
  output : Bytes
  backend : Backend

namespace Compiled

/-- What was found in the script: warnings only. -/
def diagnostics (c : Compiled) : List Diagnostic := c.session.diagnostics

def warnings (c : Compiled) : Nat := Diagnostic.warnings c.diagnostics

def symbols (c : Compiled) : Except Fault String := c.session.symbols

end Compiled

inductive CompileError where
  | noScript
  /-- The script has errors. -/
  | failed (diagnostics : List Diagnostic)
  /-- The script is right, but its program has no output. -/
  | backend (backend : Backend) (cause : BackendError) (diagnostics : List Diagnostic)
  /-- An analysis could not go on. -/
  | fault (cause : Fault)

namespace CompileError

def message : CompileError → String
  | noScript => "compile: nil script"
  | failed ds => Diagnostic.verdict (Diagnostic.errors ds) ds
  | backend b e _ => s!"{b.name} backend: {e.message}"
  | fault _ => "fault"

def diagnostics : CompileError → List Diagnostic
  | failed ds => ds
  | backend _ _ ds => ds
  | _ => []

end CompileError

def CompileOptions.session (o : CompileOptions) (s : Script) : Session :=
  { script := s, library := o.theLibrary, privileged := o.privileged }

/-- Makes the output for the program of a script. That it needs too much memory is reported at the
start of the script, with all else that was found. -/
def Session.finish (s : Session) (b : Backend) (p : Program) : Except CompileError Compiled :=
  match b.emit p with
  | .ok output => .ok { session := s, program := p, output, backend := b }
  | .error e =>
    if e.isOutOfMemory then
      .error (.failed (s.diagnostics ++
        [{ pos := s.script.pos, kind := .outOfMemory, message := e.message }]))
    else .error (.backend b e s.diagnostics)

def compile (script : Option Script) (o : CompileOptions) : Except CompileError Compiled :=
  match script with
  | none => .error .noScript
  | some script =>
    match do (← (o.session script).analyze).emit with
    | .error f => .error (.fault f)
    | .ok (s, none) => .error (.failed s.diagnostics)
    | .ok (s, some p) => s.finish o.theBackend p

end Lsl
