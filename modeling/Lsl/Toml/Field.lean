import Lsl.Toml.Value

/-! Fields of a table. A key selects a field by its name, letter case aside. A field that is absent
has a standard value; one of another type is refused. -/
namespace Lsl.Toml

/-- A character with its case removed, as far as Latin letters go. Two more characters fold to Latin
letters: the long s and the sign of the kelvin. -/
def foldCase (c : Char) : Char :=
  if c.toNat = 0x17f then 's' else if c.toNat = 0x212a then 'k' else c.toLower

def selects (key field : String) : Bool :=
  key.toList.map foldCase == field.toList.map foldCase

/-- The values under keys that select a field. A key that is the very name of the field comes before
others. -/
def selected (es : Entries) (name : String) : List Value :=
  let (exact, others) := (es.filter fun (k, _) => selects k name).partition fun (k, _) => k == name
  (exact ++ others).map (·.2)

def field? {α : Type} (convert : Value → Option α) (standard : α) (es : Entries) (name : String) :
    Option α := do
  return (← (selected es name).mapM convert).headD standard

def Value.string? : Value → Option String
  | string s => some s
  | _ => none

def Value.integer? : Value → Option Int
  | integer n => some n
  | _ => none

def Value.boolean? : Value → Option Bool
  | boolean b => some b
  | _ => none

def Value.table? : Value → Option Entries
  | table es => some es
  | _ => none

def Value.tables? : Value → Option (List Entries)
  | array vs => vs.mapM table?
  | rows ts => some ts
  | _ => none

def stringField? (es : Entries) (name : String) : Option String :=
  field? Value.string? "" es name

def integerField? (es : Entries) (name : String) : Option Int :=
  field? Value.integer? 0 es name

def booleanField? (es : Entries) (name : String) : Option Bool :=
  field? Value.boolean? false es name

/-- The entries of a field that is a table: those under all keys that select it. -/
def tableField? (es : Entries) (name : String) : Option Entries := do
  return (← (selected es name).mapM Value.table?).flatten

end Lsl.Toml
