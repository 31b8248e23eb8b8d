import Lsl.Bytes
import Lsl.Path

/-! The surroundings of the command: files, directories, the environment, the clock and the two
streams it writes to. -/
namespace Lsl

inductive FileCause where
  | notFound
  | notDirectory
  | isDirectory
  | fileExists
  | nameTooLong
  | invalidName
  /-- A cause that only the system knows. -/
  | other (text : String)
deriving DecidableEq

def FileCause.message : FileCause → String
  | notFound => "no such file or directory"
  | notDirectory => "not a directory"
  | isDirectory => "is a directory"
  | fileExists => "file exists"
  | nameTooLong => "file name too long"
  | invalidName => "invalid argument"
  | other text => text

inductive FileAction where
  | opening
  | reading
  | making
deriving DecidableEq

def FileAction.name : FileAction → String
  | opening => "open"
  | reading => "read"
  | making => "mkdir"

structure FileError where
  action : FileAction
  path : String
  cause : FileCause
deriving DecidableEq

def FileError.message (e : FileError) : String :=
  s!"{e.action.name} {e.path}: {e.cause.message}"

inductive FileKind where
  | file
  | directory
deriving DecidableEq

/-- What the command asks of its surroundings. -/
class Host (m : Type → Type) where
  readFile : String → m (Except FileError Bytes)
  /-- Writes a file, in place of one that is there. -/
  writeFile : String → Bytes → m (Except FileError Unit)
  /-- Makes one directory. -/
  makeDirectory : String → m (Except FileError Unit)
  /-- What a path leads to, if to anything. -/
  kind? : String → m (Option FileKind)
  workingDirectory : m String
  /-- The value of a variable; empty if it is not set. -/
  environment : String → m String
  /-- The time in nanoseconds. -/
  now : m Int
  /-- A name for a compile that no other has. -/
  newId : m String
  /-- Writes results. -/
  print : Bytes → m Unit
  /-- Writes complaints. -/
  complain : Bytes → m Unit

namespace Host

variable {m : Type → Type} [Monad m] [Host m]

def requireDirectory (p : String) : m (Except FileError Unit) := do
  match ← kind? p with
  | some .directory => return .ok ()
  | some .file => return .error { action := .making, path := p, cause := .notDirectory }
  | none => makeDirectory p

/-- Makes the directories of a list that are not there, up to the first that cannot be. -/
def requireDirectories : List String → m (Except FileError Unit)
  | [] => return .ok ()
  | p :: ps => do
    match ← requireDirectory p with
    | .error e => return .error e
    | .ok () => requireDirectories ps

def makeDirectories (p : String) : m (Except FileError Unit) :=
  requireDirectories (Path.way p)

/-- Writes a file and makes the directories that it needs. -/
def writeBelow (p : String) (data : Bytes) : m (Except FileError Unit) := do
  let dir := Path.parent p
  if dir = "." then writeFile p data
  else
    match ← makeDirectories dir with
    | .error e => return .error e
    | .ok () => writeFile p data

end Host
end Lsl
