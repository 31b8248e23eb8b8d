import Lsl.Host
import Lsl.Text.Utf8

/-! Surroundings that are a value: a tree of files in memory, variables, a clock that moves on
whenever it is read, and what has been written to the two streams. -/
namespace Lsl

inductive FileEntry where
  | file (data : Bytes)
  | directory
deriving DecidableEq

def FileEntry.kind : FileEntry → FileKind
  | file _ => .file
  | directory => .directory

/-- A place of the tree: the names that lead to it from the root. -/
abbrev Place := List String

structure Workspace where
  /-- What is where. The root is a directory without an entry. -/
  entries : List (Place × FileEntry) := []
  /-- The place where paths start that do not start at the root. -/
  workingPlace : Place := []
  environment : List (String × String) := []
  clock : Int := 0
  printed : Bytes := []
  complaints : Bytes := []

namespace Workspace

def at? (w : Workspace) (place : Place) : Option FileEntry :=
  if place.isEmpty then some .directory else w.entries.lookup place

def put (w : Workspace) (place : Place) (e : FileEntry) : Workspace :=
  { w with entries := (place, e) :: w.entries.filter (·.1 != place) }

/-- The longest name of a file, in bytes. -/
def maxName : Nat := 255

/-- The shortest path that is too long, in bytes. -/
def pathLimit : Nat := 4096

/-- One step on the way along a path from a directory, which has to lead to a directory again unless
it is the last. -/
def step (w : Workspace) (place : Place) (name : String) (last : Bool) :
    Except FileCause Place :=
  if name = "." then .ok place
  else if name = ".." then .ok place.dropLast
  else if maxName < name.utf8ByteSize then .error .nameTooLong
  else
    let next := place ++ [name]
    match last, w.at? next with
    | true, _ => .ok next
    | false, some .directory => .ok next
    | false, some (.file _) => .error .notDirectory
    | false, none => .error .notFound

def walk (w : Workspace) (place : Place) : List String → Except FileCause Place
  | [] => .ok place
  | n :: ns => do w.walk (← w.step place n ns.isEmpty) ns

/-- The place that a path names. All that it leads through is there, the last name need not be. -/
def locate (w : Workspace) (p : String) : Except FileCause Place :=
  if p.toList.contains (Char.ofNat 0) then .error .invalidName
  else if p = "" then .error .notFound
  else if pathLimit ≤ p.utf8ByteSize then .error .nameTooLong
  else w.walk (if Path.isAbsolute p then [] else w.workingPlace) (Path.names p)

/-- What a path leads to. A path that ends in a slash leads to directories only. -/
def find (w : Workspace) (p : String) : Except FileCause FileEntry := do
  match w.at? (← w.locate p) with
  | none => .error .notFound
  | some .directory => .ok .directory
  | some (.file data) => if Path.endsInSlash p then .error .notDirectory else .ok (.file data)

def read (w : Workspace) (p : String) : Except FileError Bytes :=
  match w.find p with
  | .error cause => .error { action := .opening, path := p, cause }
  | .ok .directory => .error { action := .reading, path := p, cause := .isDirectory }
  | .ok (.file data) => .ok data

def write (w : Workspace) (p : String) (data : Bytes) : Except FileError Workspace :=
  let refuse (cause : FileCause) := .error { action := .opening, path := p, cause }
  match w.locate p with
  | .error cause => refuse cause
  | .ok place =>
    if w.at? place = some .directory || Path.endsInSlash p then refuse .isDirectory
    else .ok (w.put place (.file data))

def makeDirectory (w : Workspace) (p : String) : Except FileError Workspace :=
  let refuse (cause : FileCause) := .error { action := .making, path := p, cause }
  match w.locate p with
  | .error cause => refuse cause
  | .ok place => if (w.at? place).isSome then refuse .fileExists else .ok (w.put place .directory)

/-- Does some work that changes the surroundings only if it is not refused. -/
def attempt (work : Workspace → Except FileError Workspace) :
    StateM Workspace (Except FileError Unit) := fun w =>
  match work w with
  | .ok w => (.ok (), w)
  | .error e => (.error e, w)

/-- The time that passes between two looks at the clock, in nanoseconds. -/
def tick : Int := 1000000

instance : Host (StateM Workspace) where
  readFile p := fun w => (w.read p, w)
  writeFile p data := attempt (·.write p data)
  makeDirectory p := attempt (·.makeDirectory p)
  kind? p := fun w => ((w.find p).toOption.map (·.kind), w)
  workingDirectory := fun w => (Path.ofNames true w.workingPlace, w)
  environment name := fun w => ((w.environment.lookup name).getD "", w)
  now := fun w => (w.clock, { w with clock := w.clock + tick })
  newId := pure ""
  print bs := modify fun w => { w with printed := w.printed ++ bs }
  complain bs := modify fun w => { w with complaints := w.complaints ++ bs }

def addDirectories (w : Workspace) (place : Place) : Workspace :=
  (List.range (place.length + 1)).foldl (fun w n =>
    if (w.at? (place.take n)).isSome then w else w.put (place.take n) .directory) w

/-- Puts a file at a place, with the directories that lead to it. -/
def addFile (w : Workspace) (place : Place) (data : Bytes) : Workspace :=
  (w.addDirectories place.dropLast).put place (.file data)

end Workspace
end Lsl
