import Lsl.Cache
import Lsl.Image.Listing
import Lsl.Manifest
import Lsl.Script.Source
import Lsl.Command.Flags

/-! One script to compile. A job says what to do with the result as a list of actions, so that doing
them is all that is left to the surroundings. -/
namespace Lsl.Command

/-- Where the outputs of a job go. An empty path asks for none, and an empty path for the main output
for a file beside the input. -/
structure Targets where
  output : String
  listing : String
  source : String
  assembly : String
  symbols : String

/-- The path from a flag, or else the one from the settings. -/
def pick (flag configured : String) : String := if flag = "" then configured else flag

def Targets.of (f : Flags) (s : Manifest) : Targets :=
  { output := pick f.output (s.outputPath .image)
    listing := pick f.listing (s.outputPath .listing)
    source := pick f.source (s.outputPath .source)
    assembly := pick f.assembly (s.outputPath .assembly)
    symbols := pick f.symbols (s.outputPath .symbols) }

structure Job where
  /-- The file that it comes from. -/
  path : String
  script : Script
  options : CompileOptions
  targets : Targets

inductive Action where
  | write (path : String) (data : Bytes)
  /-- Prints a line on the result. -/
  | report (line : String)
  /-- Gives up. -/
  | fail (reason : Bytes)
deriving DecidableEq

/-- What becomes of a job: what was found in the script, the cache if it has changed, and what is to
be done. -/
structure JobOutcome where
  diagnostics : List Diagnostic
  cache : Option Cache := none
  actions : List Action

/-- What the message of an image that cannot be read says. -/
def readErrorText : ReadError → Bytes
  | .malformed m => m.message
  | .outside offset => Text.bytes s!"image leads outside its memory at {offset}"
  | .endless => Text.bytes "image leads in a circle"

/-- The listing of a result: of its image, or of its program, or the output itself if no program has
been kept with it. -/
def listingOf (r : CachedResult) : Except ReadError Bytes :=
  if r.backend = "lso" then (Image.read r.output).map (·.listing)
  else match r.program with
    | some p => .ok (Text.bytes p.listing)
    | none => .ok r.output

namespace Job

def wantsProgram (j : Job) : Bool :=
  j.targets.assembly ≠ "" && j.options.theBackend.name ≠ "il"

/-- Whether a kept result is enough. It has no program and no symbols. -/
def isCacheable (j : Job) : Bool := !j.wantsProgram && j.targets.symbols = ""

def outputPath (j : Job) (r : CachedResult) : String :=
  if j.targets.output = "" then Path.stem j.path ++ "." ++ r.backend else j.targets.output

def summary (j : Job) (r : CachedResult) : String :=
  s!"{j.path} -> {j.outputPath r} ({r.output.length} bytes, {r.warnings} warning(s))"

def writeTo (path : String) (data : Bytes) : List Action :=
  if path = "" then [] else [.write path data]

def listingActions (j : Job) (r : CachedResult) : List Action :=
  if j.targets.listing = "" then []
  else match listingOf r with
    | .ok text => [.write j.targets.listing text]
    | .error e => [.fail (readErrorText e)]

def assemblyActions (j : Job) (r : CachedResult) : List Action :=
  if !j.wantsProgram then []
  else match r.program with
    | none => []
    | some p =>
      match Assembly.generate p with
      | .ok text => [.write j.targets.assembly (Text.bytes text)]
      | .error e => [.fail (Text.bytes e.message)]

/-- The steps for a result. `symbols` is the listing of the names that the script declares. -/
def actions (j : Job) (r : CachedResult) (symbols : String) : List Action :=
  [.write (j.outputPath r) r.output, .report (j.summary r)] ++
    j.listingActions r ++
    writeTo j.targets.source (Text.bytes j.script.source) ++
    writeTo j.targets.symbols (Text.bytes symbols) ++
    j.assemblyActions r

def complaint (e : CompileError) : String :=
  match e with
  | .failed ds => s!"{Diagnostic.errors ds} error(s)"
  | e => e.message

def failure (e : CompileError) : JobOutcome :=
  { diagnostics := e.diagnostics, actions := [.fail (Text.bytes (complaint e))] }

def runFresh (j : Job) : JobOutcome :=
  match compile (some j.script) j.options with
  | .error e => failure e
  | .ok c =>
    { diagnostics := c.diagnostics
      actions := j.actions c.result (c.symbols.toOption.getD "") }

/-- The outcome with a cache, at a time, under a name for the compile. -/
def runCached (j : Job) (cache : Cache) (id : String) (now : Int) : JobOutcome :=
  match cache.compile id now (some j.script) j.options with
  | .error (.compile e) => failure e
  | .error e => { diagnostics := [], actions := [.fail (Text.bytes e.message)] }
  | .ok a =>
    { diagnostics := a.result.diagnostics
      cache := if a.hit then none else some a.cache
      actions := j.actions a.result "" }

end Job
end Lsl.Command
