import Lsl.Compile
import Lsl.Host
import Lsl.Library.File
import Lsl.Text.Integer

/-! Project settings. A project has a file of settings in its topmost directory; variables of the
environment override it. -/
namespace Lsl

/-- The kinds of files that a compile may write. -/
inductive OutputKind where
  | image
  | listing
  | source
  | assembly
  | symbols
deriving DecidableEq

namespace OutputKind

def all : List OutputKind := [image, listing, source, assembly, symbols]

def name : OutputKind → String
  | image => "image"
  | listing => "asm"
  | source => "pretty"
  | assembly => "il"
  | symbols => "symbols"

def ofName? (s : String) : Option OutputKind := all.find? (·.name == s)

end OutputKind

structure Manifest where
  /-- The directory at which its paths start. -/
  dir : String
  memory : Int := Image.defaultMemory
  privileged : Bool := false
  backend : String := "lso"
  /-- The file of a library, or empty for the usual one. -/
  library : String := ""
  /-- The file for an output, or empty for none. -/
  output : OutputKind → String := fun _ => ""
  cacheEnabled : Bool := false
  /-- The file of the cache, or empty for the usual one. -/
  cache : String := ""

inductive SettingError where
  | unknownBackend (name : String)
  | memoryTooSmall (memory : Int)
deriving DecidableEq

def SettingError.message : SettingError → String
  | unknownBackend name => s!"unknown backend {Text.quote name} (want lso or il)"
  | memoryTooSmall n => s!"memory {n} is smaller than the image header"

inductive ManifestError where
  | unreadable (path : String) (cause : FileError)
  | syntactic (path : String)
  | setting (path : String) (cause : SettingError)

def ManifestError.message : ManifestError → String
  | unreadable path e => s!"cannot read {path}: {e.message}"
  | syntactic path => s!"parse error in {path}: not a text of settings"
  | setting path e => s!"{path}: {e.message}"

inductive LibraryLoadError where
  | unreadable (path : String) (cause : FileError)
  | contents (path : String) (cause : LibraryFileError)

def LibraryLoadError.message : LibraryLoadError → String
  | unreadable path e => s!"cannot read {path}: {e.message}"
  | contents path e => s!"{path}: {e.message}"

namespace Manifest

def fileName : String := "lslc.toml"

def validate (s : Manifest) : Except SettingError Unit :=
  if s.backend ≠ "lso" ∧ s.backend ≠ "il" then .error (.unknownBackend s.backend)
  else if s.memory ≤ Registers.size then .error (.memoryTooSmall s.memory)
  else .ok ()

/-- The path of the files of an output as a table of settings gives it. -/
def outputs? (es : Toml.Entries) : Option (OutputKind → String) := do
  let image ← Toml.stringField? es OutputKind.image.name
  let listing ← Toml.stringField? es OutputKind.listing.name
  let source ← Toml.stringField? es OutputKind.source.name
  let assembly ← Toml.stringField? es OutputKind.assembly.name
  let symbols ← Toml.stringField? es OutputKind.symbols.name
  return fun
    | .image => image
    | .listing => listing
    | .source => source
    | .assembly => assembly
    | .symbols => symbols

/-- The settings in a text, for a project in `dir`. No memory and no backend stand for the usual
ones. -/
def ofBytes? (dir : String) (bs : Bytes) : Option Manifest := do
  let es ← Toml.read? bs
  let compile ← Toml.tableField? es "compile"
  let library ← Toml.tableField? es "library"
  let output ← Toml.tableField? es "output"
  let cache ← Toml.tableField? es "cache"
  let memory ← Toml.integerField? compile "memory"
  let backend ← Toml.stringField? compile "backend"
  return { dir
           memory := if memory = 0 then Image.defaultMemory else memory
           privileged := ← Toml.booleanField? compile "privileged"
           backend := if backend = "" then "lso" else backend
           library := ← Toml.stringField? library "file"
           output := ← outputs? output
           cacheEnabled := ← Toml.booleanField? cache "enabled"
           cache := ← Toml.stringField? cache "path" }

def affirmations : List String :=
  ["true", "yes", "enable", "enabled", "positive", "affirmative", "absolutely"]

/-- Whether the value of a variable says yes. Words are in small letters, in capitals, or begin with
a capital. -/
def saysYes (s : String) : Bool :=
  ["1", "t", "T", "y", "Y"].contains s ||
    affirmations.any fun w => s == w || s == w.map Char.toUpper || s == Text.capitalize w

/-- The settings as variables override them. A variable that is empty does not, nor does a memory
that is no number. -/
def override (s : Manifest) (value : String → String) : Manifest :=
  let privileged := value "LSLC_PRIVILEGED"
  let backend := value "LSLC_BACKEND"
  let cache := value "LSLC_CACHE"
  { s with
    memory := (Text.decimalInt64? (value "LSLC_MEMORY")).getD s.memory
    privileged := if privileged = "" then s.privileged else saysYes privileged
    backend := if backend = "" then s.backend else backend
    cacheEnabled := if cache = "" then s.cacheEnabled else true
    cache := if cache = "" then s.cache else cache }

def overrides : List String := ["LSLC_MEMORY", "LSLC_PRIVILEGED", "LSLC_BACKEND", "LSLC_CACHE"]

def resolve (s : Manifest) (p : String) : String :=
  if p = "" || Path.isAbsolute p then p else Path.join s.dir p

def libraryPath (s : Manifest) : String := s.resolve s.library

def cachePath (s : Manifest) : String := s.resolve s.cache

def outputPath (s : Manifest) (k : OutputKind) : String := s.resolve (s.output k)

/-- How to compile with a library, if not the usual one. -/
def optionsWith (s : Manifest) (library : Option Library) : CompileOptions :=
  { library, privileged := s.privileged, memory := s.memory
    backend := some (if s.backend = "il" then .assembly else .image s.memory) }

variable {m : Type → Type} [Monad m] [Host m]

def load (dir : String) : m (Except ManifestError Manifest) := do
  let path := Path.join dir fileName
  match ← Host.readFile path with
  | .error e => return .error (.unreadable path e)
  | .ok bs =>
    match ofBytes? (Path.absolute (← Host.workingDirectory) dir) bs with
    | none => return .error (.syntactic path)
    | some s =>
      match s.validate with
      | .error e => return .error (.setting path e)
      | .ok () => return .ok s

/-- The settings in the first of some directories that has a file of settings. -/
def loadFirst : List String → m (Except ManifestError (Option Manifest))
  | [] => return .ok none
  | dir :: dirs => do
    match ← Host.kind? (Path.join dir fileName) with
    | none => loadFirst dirs
    | some _ => return (← load dir).map some

/-- A directory and those above it, the nearest first. -/
def searchPath (dir : String) : List String :=
  (Path.ancestors dir).reverse ++ if dir = "/" then [] else ["/"]

def search (dir : String) : m (Except ManifestError (Option Manifest)) := do
  loadFirst (searchPath (Path.absolute (← Host.workingDirectory) dir))

def applyEnvironment (s : Manifest) : m Manifest := do
  let values ← overrides.mapM fun name => return (name, ← Host.environment name)
  return s.override fun name => (values.lookup name).getD ""

def loadLibrary (path : String) : m (Except LibraryLoadError Library) := do
  match ← Host.readFile path with
  | .error e => return .error (.unreadable path e)
  | .ok bs => return (Library.parse bs).mapError (.contents path)

def compileOptions (s : Manifest) : m (Except LibraryLoadError CompileOptions) := do
  if s.libraryPath = "" then return .ok (s.optionsWith none)
  else return (← loadLibrary s.libraryPath).map fun l => s.optionsWith (some l)

end Manifest
end Lsl
