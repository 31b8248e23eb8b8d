/-! Values of a configuration text, and tables of them by key. -/
namespace Lsl.Toml

/-- The keys that lead to a value from a table around it, the outermost first. -/
abbrev KeyPath := List String

/-- A value. Floats and moments keep their text. -/
inductive Value where
  | string (s : String)
  | integer (n : Int)
  | float (text : String)
  | boolean (b : Bool)
  | moment (text : String)
  | array (items : List Value)
  | table (entries : List (String × Value))
  /-- The tables of one header that is repeated. The last one is open. -/
  | rows (tables : List (List (String × Value)))
deriving Inhabited

abbrev Entries := List (String × Value)

namespace Entries

def set (es : Entries) (k : String) (v : Value) : Entries :=
  if (es.lookup k).isSome then es.map fun (j, old) => if j = k then (j, v) else (j, old)
  else es ++ [(k, v)]

/-- The table at the end of a path. In rows the last one counts. -/
def tableAt? : KeyPath → Entries → Option Entries
  | [], es => some es
  | k :: ks, es =>
    match es.lookup k with
    | some (.table sub) => tableAt? ks sub
    | some (.rows ts) => ts.getLast?.bind (tableAt? ks)
    | _ => none

def onLast (f : Entries → Option Entries) (ts : List Entries) : Option (List Entries) :=
  match ts.reverse with
  | [] => none
  | last :: before => (f last).map fun last => (last :: before).reverse

def alter (f : Entries → Option Entries) : KeyPath → Entries → Option Entries
  | [], es => f es
  | k :: ks, es =>
    match es.lookup k with
    | some (.table sub) => (alter f ks sub).map fun sub => set es k (.table sub)
    | some (.rows ts) => (onLast (alter f ks) ts).map fun ts => set es k (.rows ts)
    | _ => none

/-- Puts a value at the end of a path in place of what was there, and makes the tables on the way
that are not there. -/
def plant (v : Value) : KeyPath → Entries → Option Entries
  | [], _ => none
  | [k], es => some (set es k v)
  | k :: ks, es =>
    match es.lookup k with
    | none => (plant v ks []).map fun sub => set es k (.table sub)
    | some (.table sub) => (plant v ks sub).map fun sub => set es k (.table sub)
    | some _ => none

end Entries

inductive Written where
  | scalar (v : Value)
  | array (items : List Written)
  /-- A table in braces. -/
  | braces (members : List (KeyPath × Written))
deriving Inhabited

def Written.isArray : Written → Bool
  | array _ => true
  | _ => false

inductive Line where
  /-- Opens a table. -/
  | header (path : KeyPath)
  /-- Opens one more table of a row. -/
  | row (path : KeyPath)
  /-- Gives a value to a key, which may have dots in it. -/
  | member (path : KeyPath) (value : Written)

end Lsl.Toml
