import Lsl.Toml.Reader

/-! The tables that the lines of a configuration text make. A key may be stated once. A table that
was only called for by something farther in is implied; it may still be stated once, and keeps what is
in it, unless what is stated is an array, which takes its place. A key with dots in it calls for the
tables on its way: it implies those that are not there, and states those that are. -/
namespace Lsl.Toml

structure Document where
  entries : Entries := []
  /-- The tables that are implied. -/
  implied : List KeyPath := []
  /-- The keys to which an array was given last. -/
  arrays : List KeyPath := []
  /-- The table of the last header. -/
  here : KeyPath := []

namespace Document

def imply (d : Document) (p : KeyPath) : Document := { d with implied := p :: d.implied }

/-- Keeps in mind whether a key has an array. An empty key stands for the table that it is in. -/
def record (d : Document) (base : KeyPath) (key : String) (isArray : Bool) : Document :=
  let p := if key ≠ "" then base ++ [key] else if base.isEmpty then [""] else base
  let others := d.arrays.filter (· != p)
  { d with arrays := if isArray then p :: others else others }

def state (d : Document) (base : KeyPath) (key : String) (v : Value) : Option Document := do
  let es ← d.entries.tableAt? base
  let p := base ++ [key]
  let entries ← d.entries.alter (fun es => some (es.set key v)) base
  if (es.lookup key).isNone then return { d with entries }
  else if d.implied.contains p then
    let implied := d.implied.filter (· != p)
    return if d.arrays.contains p then { d with entries, implied } else { d with implied }
  else none

/-- Makes the tables on the way along a path, after those along `done`. New ones are implied. -/
def reach (d : Document) (done : KeyPath) : KeyPath → Option Document
  | [] => some d
  | k :: ks => do
    let p := done ++ [k]
    match (← d.entries.tableAt? done).lookup k with
    | none =>
      let entries ← d.entries.alter (fun es => some (es.set k (.table []))) done
      reach ({ d with entries }.imply p) p ks
    | some (.table _) => reach d p ks
    | some (.rows _) => reach d p ks
    | some _ => none

def openTable (d : Document) (p : KeyPath) : Option Document := do
  let d ← d.reach [] p.dropLast
  d.state p.dropLast (p.getLastD "") (.table [])

def openRow (d : Document) (p : KeyPath) : Option Document := do
  let d ← d.reach [] p.dropLast
  let k := p.getLastD ""
  let entries ← d.entries.alter (fun es =>
    match es.lookup k with
    | none => some (es.set k (.rows [[]]))
    | some (.rows ts) => some (es.set k (.rows (ts ++ [[]])))
    | some _ => none) p.dropLast
  return { d with entries }

/-- Calls for the tables along a path from the table at `base`. -/
def callFor (d : Document) (base : KeyPath) : KeyPath → Option Document
  | [] => some d
  | k :: ks => do
    let p := base ++ [k]
    callFor (← (d.imply p).openTable p) p ks

mutual

/-- Takes in a value for a key of the table at `base`. The tables in braces within it are made in the
document as well, where their keys are held to the same rules; those that stand in an array make
rows there. -/
def value (d : Document) (base : KeyPath) (key : String) (inArray : Bool) :
    Written → Option (Document × Value)
  | .scalar v => some (d, v)
  | .array ws => do
    let (d, vs) ← items (d.record base key true) base key ws
    return (d, .array vs)
  | .braces ms => do
    let p := base ++ [key]
    let d := d.imply p
    let d ← if inArray then d.openRow p else d.openTable p
    let (d, es) ← members d p [] ms
    return (d, .table es)

def items (d : Document) (base : KeyPath) (key : String) :
    List Written → Option (Document × List Value)
  | [] => some (d, [])
  | w :: ws => do
    let (d, v) ← value d base key true w
    let (d, vs) ← items d base key ws
    return (d, v :: vs)

/-- Takes in a key of the table at `base`, which may have dots in it, and its value. -/
def member (d : Document) (base : KeyPath) : KeyPath × Written → Option (Document × Value)
  | (path, w) => do
    let front := base ++ path.dropLast
    let key := path.getLastD ""
    let d ← d.callFor base path.dropLast
    let (d, v) ← value d front key false w
    let d ← d.state front key v
    return (d.record front key w.isArray, v)

/-- Takes in the members of a table in braces, which has the entries `es` so far. -/
def members (d : Document) (base : KeyPath) (es : Entries) :
    List (KeyPath × Written) → Option (Document × Entries)
  | [] => some (d, es)
  | m :: ms => do
    let (d, v) ← member d base m
    members d base (← es.plant v m.1) ms

end

def line (d : Document) : Line → Option Document
  | .header p => do return { (← d.openTable p).record p "" false with here := p }
  | .row p => do return { (← d.openRow p).record p "" false with here := p }
  | .member p w => do return (← d.member d.here (p, w)).1

end Document

def read? (bs : Bytes) : Option Entries := do
  let d ← (← lines? bs).foldlM Document.line {}
  return d.entries

end Lsl.Toml
