import Lsl.Text.Duration
import Lsl.Text.Integer
import Lsl.Text.Quoted

/-! The arguments of the command: flags, then inputs. A flag is a name behind one or two dashes. Its
value follows an equals sign or is the next argument; a switch needs none, and has one only behind an
equals sign. -/
namespace Lsl.Command

/-- What the arguments ask for. A setting that no flag gives is `none`. -/
structure Flags where
  verbosity : Int := 0
  output : String := ""
  listing : String := ""
  source : String := ""
  assembly : String := ""
  symbols : String := ""
  backend : Option String := none
  memory : Option Int := none
  privileged : Option Bool := none
  library : Option String := none
  cache : Option String := none
  noCache : Bool := false
  /-- Outputs that have been kept for longer are removed, in nanoseconds. -/
  prune : Int := 0

inductive FlagError where
  /-- They ask for help. -/
  | help
  | badForm (argument : String)
  | undefined (name : String)
  | noValue (name : String)
  | badSwitch (name value : String)
  | badValue (name value : String)

def FlagError.message : FlagError → String
  | help => ""
  | badForm a => s!"bad flag syntax: {a}\n"
  | undefined n => s!"flag provided but not defined: -{n}\n"
  | noValue n => s!"flag needs an argument: -{n}\n"
  | badSwitch n v => s!"invalid boolean value {Text.quote v} for -{n}: parse error\n"
  | badValue n v => s!"invalid value {Text.quote v} for flag -{n}: parse error\n"

/-- How a flag takes its value. -/
inductive FlagForm where
  /-- A value of its own. -/
  | valued (set : Flags → String → Option Flags)
  /-- None, or one behind an equals sign. -/
  | switch (set : Flags → Bool → Flags)

def truth? (s : String) : Option Bool :=
  if ["1", "t", "T", "TRUE", "true", "True"].contains s then some true
  else if ["0", "f", "F", "FALSE", "false", "False"].contains s then some false
  else none

def textFlag (set : Flags → String → Flags) : FlagForm := .valued fun f s => some (set f s)

def numberFlag (set : Flags → Int → Flags) : FlagForm :=
  .valued fun f s => (Text.numeralInt64? s).map (set f)

def flagForms : List (String × FlagForm) :=
  [("v", numberFlag fun f n => { f with verbosity := n }),
    ("o", textFlag fun f s => { f with output := s }),
    ("S", textFlag fun f s => { f with listing := s }),
    ("pretty", textFlag fun f s => { f with source := s }),
    ("il", textFlag fun f s => { f with assembly := s }),
    ("symbols", textFlag fun f s => { f with symbols := s }),
    ("backend", textFlag fun f s => { f with backend := some s }),
    ("memory", numberFlag fun f n => { f with memory := some n }),
    ("privileged", .switch fun f b => { f with privileged := some b }),
    ("library", textFlag fun f s => { f with library := some s }),
    ("cache", textFlag fun f s => { f with cache := some s }),
    ("no-cache", .switch fun f b => { f with noCache := b }),
    ("prune", .valued fun f s => (Text.duration? s).map fun d => { f with prune := d })]

/-- Splits a flag at its first equals sign; the name before it has at least one character. -/
def splitValue (cs : List Char) : String × Option String :=
  let name := cs.take 1 ++ (cs.drop 1).takeWhile (· ≠ '=')
  (String.ofList name, match (cs.drop 1).dropWhile (· ≠ '=') with
    | _ :: value => some (String.ofList value)
    | [] => none)

/-- The text of a flag behind its dashes, if an argument is a flag and not a lone dash. -/
def flagText? (argument : String) : Option (List Char) :=
  match argument.toList with
  | '-' :: '-' :: cs => some cs
  | '-' :: c :: cs => some (c :: cs)
  | _ => none

/-- Takes in a flag and its value, if it has one. What is left of the arguments comes with it. -/
def setFlag (f : Flags) (name : String) (value : Option String) (rest : List String) :
    Except FlagError (Flags × List String) :=
  match flagForms.lookup name with
  | none => .error (if name = "h" ∨ name = "help" then .help else .undefined name)
  | some (.switch set) =>
    match value with
    | none => .ok (set f true, rest)
    | some v =>
      match truth? v with
      | some b => .ok (set f b, rest)
      | none => .error (.badSwitch name v)
  | some (.valued set) =>
    let given := match value, rest with
      | some v, rest => some (v, rest)
      | none, v :: rest => some (v, rest)
      | none, [] => none
    match given with
    | none => .error (.noValue name)
    | some (v, rest) =>
      match set f v with
      | some f => .ok (f, rest)
      | none => .error (.badValue name v)

/-- Reads flags up to the first argument that is none, or to two dashes alone. -/
def readFlags : Nat → Flags → List String → Except FlagError (Flags × List String)
  | 0, f, rest => .ok (f, rest)
  | _, f, [] => .ok (f, [])
  | fuel + 1, f, a :: rest =>
    match flagText? a with
    | none => .ok (f, a :: rest)
    | some cs =>
      if a = "--" then .ok (f, rest)
      else if cs.isEmpty ∨ cs.head? = some '-' ∨ cs.head? = some '=' then .error (.badForm a)
      else do
        let (name, value) := splitValue cs
        let (f, rest) ← setFlag f name value rest
        readFlags fuel f rest

/-- What arguments ask for, and the inputs. Each flag takes at least one argument. -/
def parseArguments (args : List String) : Except FlagError (Flags × List String) :=
  readFlags args.length {} args

def usage : String :=
  "Usage: lslc [options] tree.cbor...\n       lslc dump image.lso\n\n" ++
  "Compiles CBOR-encoded LSL syntax trees.\n\nOptions:\n" ++
  "  -S string\n    \tWrite an assembly listing to this file\n" ++
  "  -backend string\n    \tBackend: lso or il (default from lslc.toml, else lso)\n" ++
  "  -cache string\n    \tCompile cache database\n" ++
  "  -il string\n    \tWrite IL text to this file\n" ++
  "  -library string\n    \tLibrary table (TOML)\n" ++
  "  -memory int\n    \tImage size in bytes (default from lslc.toml, else 16384)\n" ++
  "  -no-cache\n    \tDisable the compile cache\n" ++
  "  -o string\n    \tOutput file (default: input name with .lso or .il)\n" ++
  "  -pretty string\n    \tWrite reconstructed source to this file\n" ++
  "  -privileged\n    \tAllow privileged library functions\n" ++
  "  -prune duration\n    \tRemove cache entries older than this and exit\n" ++
  "  -symbols string\n    \tWrite the symbol table listing to this file\n" ++
  "  -v int\n    \tLog verbosity (1 info, 2 debug)\n\nEnvironment:\n" ++
  "  LSLC_MEMORY, LSLC_PRIVILEGED, LSLC_BACKEND, LSLC_CACHE override lslc.toml\n"

end Lsl.Command
