/-! Paths of files. A path is a text of names with slashes between them; one that begins with a slash
starts at the root. -/
namespace Lsl.Path

/-- The texts between the slashes of a path. Two slashes have an empty text between them. -/
def splitSlash : List Char → List (List Char)
  | [] => [[]]
  | c :: cs =>
    if c = '/' then [] :: splitSlash cs
    else
      match splitSlash cs with
      | [] => [[c]]
      | n :: ns => (c :: n) :: ns

def names (p : String) : List String :=
  ((splitSlash p.toList).filter (!·.isEmpty)).map String.ofList

def isAbsolute (p : String) : Bool := p.toList.head? == some '/'

def endsInSlash (p : String) : Bool := p.toList.getLast? == some '/'

/-- Puts a name on a path that is held with its last name first. A dot adds nothing, and two dots take
a name away. Nothing is above the root; above the start of another path the dots stay. -/
def push (rooted : Bool) (path : List String) (name : String) : List String :=
  if name = "." then path
  else if name = ".." then
    match path with
    | [] => if rooted then [] else [name]
    | last :: rest => if last = ".." then name :: path else rest
  else name :: path

/-- A path from its names. Without names it is the root or the place itself. -/
def ofNames (rooted : Bool) (ns : List String) : String :=
  if rooted then "/" ++ "/".intercalate ns
  else if ns.isEmpty then "." else "/".intercalate ns

/-- The shortest path that means the same, as far as the text tells. -/
def clean (p : String) : String :=
  let rooted := isAbsolute p
  ofNames rooted ((names p).foldl (push rooted) []).reverse

def join (base p : String) : String :=
  if base = "" then if p = "" then "" else clean p else clean (base ++ "/" ++ p)

/-- The path from the root, for one that starts at `base`. -/
def absolute (base p : String) : String := if isAbsolute p then clean p else join base p

def parent (p : String) : String :=
  clean (String.ofList (p.toList.reverse.dropWhile (· ≠ '/')).reverse)

def lastName (p : String) : String :=
  String.ofList (p.toList.reverse.takeWhile (· ≠ '/')).reverse

/-- Splits a path before the last point of its last name. Without a point the second part is
empty. -/
def splitExtension (p : String) : String × String :=
  let last := (lastName p).toList.reverse
  let size := (last.takeWhile (· ≠ '.')).length
  if size = last.length then (p, "")
  else (String.ofList (p.toList.take (p.length - size - 1)),
    String.ofList (p.toList.drop (p.length - size - 1)))

def stem (p : String) : String := (splitExtension p).1

/-- A path and the paths above it, the topmost first. -/
def ancestors (p : String) : List String :=
  let rooted := isAbsolute p
  let ns := names p
  if ns.isEmpty then [p]
  else (List.range ns.length).map fun i => ofNames rooted (ns.take (i + 1))

/-- The directories on the way to a directory, the topmost first, and at the end the path itself.
Those above it are written with a slash at their end. -/
def way (p : String) : List String :=
  let ps := ancestors p
  ps.dropLast.map (· ++ "/") ++ ps.getLast?.toList

end Lsl.Path
