import Lsl.Text.Quoted

/-! Value types. The eight types of the language carry the tags 0 to 7 that code and images store;
a tree or an image may hold any other byte in a type's place, and such a tag is kept as it is. -/
namespace Lsl

/-- A value type, or a tag outside the language, counted from the first free tag. -/
inductive Ty where
  | void
  | integer
  | float
  | string
  | key
  | vector
  | rotation
  | list
  | unknown (n : Fin 248)
deriving DecidableEq

namespace Ty

/-- The number that stands for the type in code and images. -/
def tag : Ty → Nat
  | void => 0
  | integer => 1
  | float => 2
  | string => 3
  | key => 4
  | vector => 5
  | rotation => 6
  | list => 7
  | unknown n => n.val + 8

/-- The type with a tag; tags count modulo 256. -/
def ofTag (n : Nat) : Ty :=
  match n % 256 with
  | 0 => void
  | 1 => integer
  | 2 => float
  | 3 => string
  | 4 => key
  | 5 => vector
  | 6 => rotation
  | 7 => list
  | k + 8 => unknown (Fin.ofNat 248 k)

/-- The eight types of the language in tag order. -/
def known : List Ty := [void, integer, float, string, key, vector, rotation, list]

def name : Ty → String
  | void => "void"
  | integer => "integer"
  | float => "float"
  | string => "string"
  | key => "key"
  | vector => "vector"
  | rotation => "rotation"
  | list => "list"
  | unknown n => s!"Type({n.val + 8})"

/-- The bytes a value takes in a frame or among the globals. Strings, keys and lists are handles of
heap blocks; `void` and unknown tags take no room. -/
def size : Ty → Nat
  | void => 0
  | integer => 4
  | float => 4
  | string => 4
  | key => 4
  | vector => 12
  | rotation => 16
  | list => 4
  | unknown _ => 0

def isReference : Ty → Bool
  | string | key | list => true
  | _ => false

def isNumeric : Ty → Bool
  | integer | float => true
  | _ => false

def isKnown : Ty → Bool
  | unknown _ => false
  | _ => true

/-- The letter of the type in parameter lists. `void` and unknown tags have none and show as NUL. -/
def letter : Ty → Char
  | integer => 'i'
  | float => 'f'
  | string => 's'
  | key => 'k'
  | vector => 'v'
  | rotation => 'q'
  | list => 'l'
  | void | unknown _ => Char.ofNat 0

def ofLetter? (c : Char) : Option Ty :=
  match c with
  | 'i' => some integer
  | 'f' => some float
  | 's' => some string
  | 'k' => some key
  | 'v' => some vector
  | 'q' => some rotation
  | 'l' => some list
  | _ => none

/-- A byte of a parameter list that is no type's letter, and where it stands. -/
structure LetterError where
  byte : UInt8
  position : Nat
deriving DecidableEq

def LetterError.message (e : LetterError) : String :=
  s!"invalid type character {Text.quoteChar (Char.ofNat e.byte.toNat)} at position {e.position}"

/-- Reads type letters from bytes, of which the first stands at `position`. -/
def readLetters (position : Nat) : List UInt8 → Except LetterError (List Ty)
  | [] => .ok []
  | b :: rest =>
    match ofLetter? (Char.ofNat b.toNat) with
    | none => .error ⟨b, position⟩
    | some t => (readLetters (position + 1) rest).map (t :: ·)

/-- Reads a parameter list such as `isv`. -/
def ofLetters (s : String) : Except LetterError (List Ty) := readLetters 0 (Text.bytes s)

def letters (ts : List Ty) : String := String.ofList (ts.map letter)

/-- The type with a keyword; `quaternion` also names rotations. -/
def ofName? (s : String) : Option Ty :=
  if s = "quaternion" then some rotation else known.find? (·.name == s)

/-- Two tags in one byte, each reduced to four bits: the left one in the high half. -/
def pair (left right : Ty) : UInt8 := UInt8.ofNat (left.tag % 16 * 16 + right.tag % 16)

def ofPair (b : UInt8) : Ty × Ty := (ofTag (b.toNat / 16), ofTag (b.toNat % 16))

def frameSize : List Ty → Nat
  | [] => 0
  | t :: ts => t.size + frameSize ts

def names (ts : List Ty) : String := ", ".intercalate (ts.map name)

/-- Whether a value of type `src` may be assigned to a variable of type `dst`. -/
def assignable (dst src : Ty) : Bool :=
  if dst = void ∨ src = void then false
  else if dst = src then true
  else match dst with
    | float => src == integer
    | string => src == key
    | key => src == string
    | list => true
    | _ => false

/-- The wider rule for arguments and initialisers: any value also becomes a string. -/
def coercible (dst src : Ty) : Bool := assignable dst src || (dst == string && src != void)

def castable : Ty → Ty → Bool
  | integer, target | float, target => target ∈ [integer, float, string, list]
  | string, target => target ∈ [integer, float, string, key, vector, rotation, list]
  | key, target => target ∈ [string, key, list]
  | vector, target => target ∈ [string, vector, list]
  | rotation, target => target ∈ [string, rotation, list]
  | list, target => target ∈ [string, list]
  | void, _ | unknown _, _ => false

end Ty
end Lsl
