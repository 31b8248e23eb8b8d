import Lsl.Library.Basic
import Lsl.Toml.Document
import Lsl.Toml.Field

/-! Library tables as configuration texts. -/
namespace Lsl

structure LibraryRecord where
  name : String
  result : String
  params : String
  privileged : Bool
  index : Int

inductive LibraryFileError where
  /-- It is no configuration text, or a field has the wrong type. -/
  | syntactic
  /-- A field has a value outside its range. -/
  | schema
  | table (cause : LibraryError)

def LibraryFileError.message : LibraryFileError → String
  | syntactic => "parse error: not a table of functions"
  | schema => "library table does not match schema: a field is out of range"
  | table e => e.message

namespace LibraryRecord

def isNameStart (c : Char) : Bool := c.isAlpha || c == '_'

def isNamePart (c : Char) : Bool := c.isAlphanum || c == '_'

def isName (s : String) : Bool :=
  match s.toList with
  | c :: cs => isNameStart c && cs.all isNamePart
  | [] => false

def resultNames : List String :=
  ["void", "integer", "float", "string", "key", "vector", "rotation", "quaternion", "list"]

def isValid (r : LibraryRecord) : Bool :=
  isName r.name && resultNames.contains r.result &&
    r.params.toList.all (fun c => "ifskvql".toList.contains c) &&
    0 ≤ r.index && r.index ≤ 65535

def function (r : LibraryRecord) : LibraryFunction :=
  { name := r.name, result := (Ty.ofName? r.result).getD .void,
    params := r.params.toList.filterMap Ty.ofLetter?, privileged := r.privileged, index := r.index }

/-- The record that a table of a configuration text holds. -/
def ofTable? (es : Toml.Entries) : Option LibraryRecord := do
  return { name := ← Toml.stringField? es "name", result := ← Toml.stringField? es "return"
           params := ← Toml.stringField? es "params"
           privileged := ← Toml.booleanField? es "privileged"
           index := ← Toml.integerField? es "index" }

def ofBytes? (bs : Bytes) : Option (List LibraryRecord) := do
  let es ← Toml.read? bs
  let rows ← Toml.field? Toml.Value.tables? [] es "function"
  rows.mapM ofTable?

/-- Whether records may make a library table. Without a list of them they may not. -/
def validate (rs : Option (List LibraryRecord)) : Bool :=
  match rs with
  | none => false
  | some rs => rs.all isValid

end LibraryRecord

def Library.parse (bs : Bytes) : Except LibraryFileError Library :=
  match LibraryRecord.ofBytes? bs with
  | none => .error .syntactic
  | some rs =>
    if LibraryRecord.validate (some rs) then
      (Library.addAll {} (rs.map (·.function))).mapError .table
    else .error .schema

end Lsl
