import Lsl.Cache.Stored
import Lsl.Command.Job

/-! The command: reads its arguments and settings, and compiles scripts or lists images. -/
namespace Lsl.Command

variable {m : Type → Type} [Monad m] [Host m]

def complain (s : String) : m Unit := Host.complain (Text.bytes s)

/-- Takes the steps of a job up to the first that fails, and tells why. -/
def perform : List Action → m (Option Bytes)
  | [] => return none
  | .write path data :: rest => do
    match ← Host.writeBelow path data with
    | .error e => return some (Text.bytes e.message)
    | .ok () => perform rest
  | .report line :: rest => do
    Host.print (Text.bytes (line ++ "\n"))
    perform rest
  | .fail reason :: _ => return some reason

/-- The settings that flags give. Paths in flags start at the working directory. -/
def Flags.override (f : Flags) (base : String) (s : Manifest) : Manifest :=
  { s with
    backend := f.backend.getD s.backend
    memory := f.memory.getD s.memory
    privileged := f.privileged.getD s.privileged
    library := (f.library.map (Path.absolute base)).getD s.library
    cacheEnabled := !f.noCache && (f.cache.isSome || s.cacheEnabled)
    cache := (f.cache.map (Path.absolute base)).getD s.cache }

/-- The settings of a run: those of the project, overridden by the environment and then by flags. -/
def settings (f : Flags) : m (Except String Manifest) := do
  let base ← Host.workingDirectory
  match ← Manifest.search "." with
  | .error e => return .error s!"loading manifest: {e.message}"
  | .ok found =>
    let s ← (found.getD { dir := base }).applyEnvironment
    match s.validate with
    | .error e => return .error e.message
    | .ok () =>
      let s := f.override base s
      return (s.validate.mapError (·.message)).map fun _ => s

def defaultCachePath : m (Except String String) := do
  let cacheHome ← Host.environment "XDG_CACHE_HOME"
  let home ← Host.environment "HOME"
  if cacheHome ≠ "" then
    if Path.isAbsolute cacheHome then return .ok (Path.join cacheHome "lslc/compiles.db")
    else return .error "getting cache dir: path in $XDG_CACHE_HOME is relative"
  else if home ≠ "" then return .ok (Path.join (home ++ "/.cache") "lslc/compiles.db")
  else return .error "getting cache dir: neither $XDG_CACHE_HOME nor $HOME are defined"

/-- The cache in a file. A file that is not there holds an empty one. -/
def loadCache (path : String) : m (Except String Cache) := do
  match ← Host.kind? path with
  | none => return .ok {}
  | some _ =>
    match ← Host.readFile path with
    | .error e => return .error e.message
    | .ok bs => return match Cache.decode? bs with
      | some c => .ok c
      | none => .error "file is not a database"

def saveCache (path : String) (c : Cache) : m (Except String Unit) := do
  return (← Host.writeFile path c.encode).mapError (·.message)

def openCache (path : String) : m (Except String Unit) := do
  match ← Host.makeDirectories (Path.parent path) with
  | .error e => return .error s!"opening cache: creating cache directory: {e.message}"
  | .ok () =>
    match ← loadCache path with
    | .error e => return .error s!"opening cache: {e}"
    | .ok c => return (← saveCache path c).mapError fun e => s!"opening cache: {e}"

/-- The file of the cache, ready for use, if the settings ask for one. -/
def cacheFile (s : Manifest) : m (Except String (Option String)) := do
  if !s.cacheEnabled then return .ok none
  else
    match ← (if s.cachePath = "" then defaultCachePath else return .ok s.cachePath) with
    | .error e => return .error e
    | .ok path => return (← openCache path).map fun _ => some path

def runJob (j : Job) (cachePath : Option String) : m (Except String JobOutcome) := do
  match cachePath with
  | none => return .ok j.runFresh
  | some path =>
    if j.isCacheable then
      match ← loadCache path with
      | .error e => return .error e
      | .ok cache =>
        let o := j.runCached cache (← Host.newId) (← Host.now)
        match o.cache with
        | none => return .ok o
        | some cache => return (← saveCache path cache).map fun _ => o
    else return .ok j.runFresh

def scriptErrorText : ScriptError → String
  | .malformed => "compiler: unmarshal script: malformed tree"
  | .node e => e.message

def makeJob (f : Flags) (s : Manifest) (path : String) : m (Except String Job) := do
  match ← Host.readFile path with
  | .error e => return .error e.message
  | .ok bs =>
    match Script.decode bs with
    | .error e => return .error (scriptErrorText e)
    | .ok script =>
      match ← s.compileOptions with
      | .error e => return .error e.message
      | .ok options => return .ok { path, script, options, targets := .of f s }

/-- Compiles an input. Tells why if that fails. -/
def compileInput (f : Flags) (s : Manifest) (cachePath : Option String) (path : String) :
    m (Option Bytes) := do
  match ← makeJob f s path with
  | .error e => return some (Text.bytes e)
  | .ok j =>
    match ← runJob j cachePath with
    | .error e => return some (Text.bytes e)
    | .ok o =>
      complain (Diagnostic.log o.diagnostics)
      perform o.actions

/-- Compiles inputs one after another. The exit code tells whether all went well. -/
def compileInputs (f : Flags) (s : Manifest) (cachePath : Option String) :
    List String → m Nat
  | [] => return 0
  | path :: rest => do
    match ← compileInput f s cachePath path with
    | none => compileInputs f s cachePath rest
    | some reason =>
      Host.complain (Text.bytes (path ++ ": ") ++ reason ++ Text.bytes "\n")
      let _ ← compileInputs f s cachePath rest
      return 1

def stop (reason : String) : m Nat := do
  complain s!"Error: {reason}\n"
  return 1

/-- Removes kept outputs that are older than a duration. -/
def prune (age : Int) (cachePath : Option String) : m Nat := do
  match cachePath with
  | none => stop "-prune needs a cache"
  | some path =>
    match ← loadCache path with
    | .error e => stop e
    | .ok c =>
      let (c, removed) := c.prune ((← Host.now) - age)
      match ← saveCache path c with
      | .error e => stop e
      | .ok () =>
        Host.print (Text.bytes s!"Removed {removed} cache entries\n")
        return 0

def runWith (f : Flags) (inputs : List String) : m Nat := do
  match ← settings f with
  | .error e => stop e
  | .ok s =>
    match ← cacheFile s with
    | .error e => stop e
    | .ok cachePath =>
      if 0 < f.prune then prune f.prune cachePath
      else if inputs.isEmpty then
        complain usage
        return 2
      else if 1 < inputs.length ∧ f.output ≠ "" then
        complain "Error: -o needs a single input\n"
        return 2
      else compileInputs f s cachePath inputs

/-- Lists images up to the first that cannot be read. -/
def listImages : List String → m Nat
  | [] => return 0
  | path :: rest => do
    match ← Host.readFile path with
    | .error e => stop e.message
    | .ok bs =>
      match Image.read bs with
      | .error e =>
        Host.complain (Text.bytes (path ++ ": ") ++ readErrorText e ++ Text.bytes "\n")
        return 1
      | .ok img =>
        Host.print (Text.bytes s!"; {path}\n" ++ img.listing)
        listImages rest

def run (args : List String) : m Nat := do
  match args with
  | "dump" :: [] =>
    complain "Usage: lslc dump image.lso...\n"
    return 2
  | "dump" :: paths => listImages paths
  | args =>
    match parseArguments args with
    | .error e =>
      complain (e.message ++ usage)
      return 2
    | .ok (f, inputs) => runWith f inputs

end Lsl.Command
