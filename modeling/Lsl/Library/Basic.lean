import Lsl.Language.Ty

/-! Library functions: what a script may call without defining it. A table keeps its functions in
the order of their indices; names and indices are unique. -/
namespace Lsl

structure LibraryFunction where
  name : String
  result : Ty
  params : List Ty
  /-- Whether only privileged scripts may call it. -/
  privileged : Bool := false
  index : Int := 0
deriving DecidableEq

def LibraryFunction.signature (f : LibraryFunction) : String :=
  s!"{f.result.name} {f.name}({Ty.letters f.params})"

inductive LibraryError where
  | duplicateName (name : String)
  | duplicateIndex (index : Int) (holder name : String)
  | indexRange (name : String) (index : Int)

def LibraryError.message : LibraryError → String
  | duplicateName n => s!"duplicate library function {Text.quote n}"
  | duplicateIndex i a b => s!"library index {i} used by both {Text.quote a} and {Text.quote b}"
  | indexRange n i => s!"library function {Text.quote n}: index {i} out of range"

structure Library where
  functions : List LibraryFunction := []
deriving DecidableEq

namespace Library

def lookup? (l : Library) (name : String) : Option LibraryFunction :=
  l.functions.find? (·.name == name)

def atIndex? (l : Library) (i : Int) : Option LibraryFunction :=
  l.functions.find? (·.index == i)

/-- Puts a function before the first one with a larger index. -/
def insertSorted (f : LibraryFunction) : List LibraryFunction → List LibraryFunction
  | [] => [f]
  | g :: rest => if f.index < g.index then f :: g :: rest else g :: insertSorted f rest

/-- Adds a function, if its name and index are free and the index fits sixteen bits. -/
def add (l : Library) (f : LibraryFunction) : Except LibraryError Library :=
  if (l.lookup? f.name).isSome then .error (.duplicateName f.name)
  else match l.atIndex? f.index with
    | some g => .error (.duplicateIndex f.index g.name f.name)
    | none =>
      if f.index < 0 ∨ 0xffff < f.index then .error (.indexRange f.name f.index)
      else .ok ⟨insertSorted f l.functions⟩

def addAll (l : Library) (fs : List LibraryFunction) : Except LibraryError Library :=
  fs.foldlM add l

/-- The functions that a script may call, in the order of their indices. -/
def visible (l : Library) (privileged : Bool) : List LibraryFunction :=
  l.functions.filter fun f => !f.privileged || privileged

end Library
end Lsl
