import Lsl.Command.Run
import Std.Time.DateTime.Timestamp

/-! The command in the surroundings that the system gives it. -/
namespace Lsl

def causeOf : IO.Error → FileCause
  | .noFileOrDirectory .. => .notFound
  | .alreadyExists .. => .fileExists
  | .inappropriateType _ code _ => if code = 21 then .isDirectory else .notDirectory
  | .invalidArgument _ code _ => if code = 36 then .nameTooLong else .invalidName
  | e => .other (toString e)

def attemptOn {α : Type} (action : FileAction) (path : String) (work : IO α) :
    IO (Except FileError α) := do
  try return .ok (← work)
  catch e => return .error { action, path, cause := causeOf e }

/-- A file that can be opened and not read is a directory. -/
def readFileOn (path : String) : IO (Except FileError Bytes) := do
  match ← attemptOn .opening path (IO.FS.readBinFile path) with
  | .ok data => return .ok data.toList
  | .error e =>
    return .error (if e.cause = .isDirectory then { e with action := .reading } else e)

def kindOn (path : String) : IO (Option FileKind) := do
  try
    let place ← IO.FS.realPath path
    if ← place.isDir then return some .directory
    else return if Path.endsInSlash path then none else some .file
  catch _ => return none

def idOfBytes (bs : Bytes) : String :=
  let digits := (Text.hexBytes bs).toList
  let group (start size : Nat) := String.ofList ((digits.drop start).take size)
  "-".intercalate [group 0 8, group 8 4, group 12 4, group 16 4, group 20 12]

instance : Host IO where
  readFile := readFileOn
  writeFile path data := attemptOn .opening path (IO.FS.writeBinFile path ⟨data.toArray⟩)
  makeDirectory path := attemptOn .making path (IO.FS.createDir path)
  kind? := kindOn
  workingDirectory := do return (← IO.FS.realPath ".").toString
  environment name := do return (← IO.getEnv name).getD ""
  now := do return (← Std.Time.Timestamp.now).toNanosecondsSinceUnixEpoch.val
  newId := do return idOfBytes (← IO.getRandomBytes 16).toList
  print bs := do (← IO.getStdout).write ⟨bs.toArray⟩
  complain bs := do (← IO.getStderr).write ⟨bs.toArray⟩

end Lsl

def main (args : List String) : IO UInt32 := do
  return UInt32.ofNat (← Lsl.Command.run args)
