import Lsl.Cbor.Item
import Lsl.Script.Node
import Lsl.Single.Convert

/-! Scripts as bytes. A node is a map from field numbers to fields. Writing is canonical: fields in
order, zero fields left out, every number in its shortest form. Reading accepts any well-formed map
whose fields have the right types. -/
namespace Lsl.Node

open Cbor (Item)

/-- The shortest of half and single precision that keeps the value. -/
def floatBytes (x : Single) : Bytes :=
  match x.toHalf? with
  | some h => 0xf9 :: bigEndian 2 h.toNat
  | none => 0xfa :: word32 x.bits

/-- The fields of a node that are not zero, by number. Negative zero counts as zero. -/
def fieldBytes (f : NodeFields) : List (Nat × Bytes) :=
  let field (zero : Bool) (number : Nat) (content : Bytes) :=
    if zero then [] else [(number, content)]
  let text (s : String) := Item.ofText (Text.bytes s)
  [(1, text f.kind)] ++
    field (f.line == 0) 2 (Item.ofInt f.line) ++
    field (f.column == 0) 3 (Item.ofInt f.column) ++
    field (f.name == "") 4 (text f.name) ++
    field (f.ty == .void) 5 (Item.ofInt f.ty.tag) ++
    field (f.op == .none) 6 (Item.ofInt f.op.code) ++
    field (f.int == 0) 7 (Item.ofInt f.int.toInt) ++
    field f.float.isZero 8 (floatBytes f.float) ++
    field (f.text == "") 9 (text f.text) ++
    field (f.member == "") 10 (text f.member) ++
    field (f.flags == 0) 11 (Item.ofInt f.flags.toNat)

mutual

def encode : Node → Bytes
  | null => Item.null
  | node f kids lists =>
    let fields := fieldBytes f ++
      (if kids.isEmpty then [] else [(12, Item.head 4 kids.length ++ encodeAll kids)]) ++
      (if lists.isEmpty then [] else [(13, Item.head 4 lists.length ++ encodeLists lists)])
    Item.head 5 fields.length ++ fields.flatMap fun (n, content) => Item.ofInt n ++ content

def encodeAll : List Node → Bytes
  | [] => []
  | n :: ns => encode n ++ encodeAll ns

def encodeLists : List (List Node) → Bytes
  | [] => []
  | ns :: rest => Item.head 4 ns.length ++ encodeAll ns ++ encodeLists rest

end

/-- Whether a tag may stand on an item: the tags of times and large numbers call for their own kinds
of content. -/
def tagFits (number : Nat) (content : Item) : Bool :=
  match number, content with
  | 0, .text _ => true
  | 1, .uint _ | 1, .nint _ | 1, .half _ | 1, .single _ | 1, .double _ => true
  | 2, .bytes _ | 3, .bytes _ => true
  | 0, _ | 1, _ | 2, _ | 3, _ => false
  | _, _ => true

/-- An item without its tags. The tags of large numbers make whole numbers, if they fit 64 bits. -/
def untag? : Item → Option Item
  | .tag number content =>
    if !tagFits number content then none
    else match number, content with
      | 2, .bytes b => if natOfBytes b < 0x10000000000000000 then some (.uint (natOfBytes b)) else none
      | 3, .bytes b => some (.nint (natOfBytes b))
      | _, c => untag? c
  | i => some i

/-- Null and undefined leave a field as it is. -/
def isNil : Item → Bool
  | .simple 22 | .simple 23 => true
  | _ => false

/-- The whole number that an untagged item stands for. Simple values without a meaning of their own
count as numbers. -/
def wholeOf? : Item → Option Int
  | .uint n => some n
  | .nint n => if n < 0x8000000000000000 then some (-1 - n) else none
  | .simple n => if 20 ≤ n ∧ n ≤ 23 then none else some n
  | _ => none

def intField? (low high : Int) (i : Item) : Option Int := do
  let i ← untag? i
  if isNil i then return 0
  let n ← wholeOf? i
  if low ≤ n ∧ n ≤ high then return n else none

def byteField? (i : Item) : Option Nat := (intField? 0 255 i).map Int.toNat

def longField? (i : Item) : Option Int := intField? (-0x8000000000000000) 0x7fffffffffffffff i

def wordField? (i : Item) : Option Int32 := (intField? (-0x80000000) 0x7fffffff i).map Int32.ofInt

/-- A float of any precision, or a whole number. -/
def floatField? (i : Item) : Option Single := do
  match ← untag? i with
  | .half b => return Single.ofHalf b
  | .single b => return Single.settled ⟨b⟩
  | .double b => Single.ofDouble? b
  | i => if isNil i then return .zero else return Single.ofIntViaDouble (← wholeOf? i)

/-- The text of chunks that are each well formed. -/
def textOf? (chunks : List Bytes) : Option String :=
  (chunks.mapM Text.ofBytes?).map String.join

def textField? (i : Item) : Option String := do
  match ← untag? i with
  | .text chunks => textOf? chunks
  | i => if isNil i then return "" else none

/-- The number of the field that a key selects: zero if it selects none. -/
def keyOf? : Item → Option Nat
  | .uint n => some n
  | .nint n => if n < 0x8000000000000000 then some 0 else none
  | .text chunks => do
    let s ← textOf? chunks
    return (((List.range 14).drop 1).find? fun n => toString n == s).getD 0
  | _ => none

/-- A node under construction and the numbers of the fields it has. -/
structure Partial where
  fields : NodeFields := {}
  kids : List Node := []
  lists : List (List Node) := []
  seen : List Nat := []

def setField (p : Partial) (number : Nat) (i : Item) : Option Partial := do
  let f := p.fields
  let fields ← match number with
    | 1 => (textField? i).map fun s => { f with kind := s }
    | 2 => (longField? i).map fun n => { f with line := n }
    | 3 => (longField? i).map fun n => { f with column := n }
    | 4 => (textField? i).map fun s => { f with name := s }
    | 5 => (byteField? i).map fun n => { f with ty := Ty.ofTag n }
    | 6 => (byteField? i).map fun n => { f with op := Operator.ofCode n }
    | 7 => (wordField? i).map fun n => { f with int := n }
    | 8 => (floatField? i).map fun x => { f with float := x }
    | 9 => (textField? i).map fun s => { f with text := s }
    | 10 => (textField? i).map fun s => { f with member := s }
    | 11 => (byteField? i).map fun n => { f with flags := UInt8.ofNat n }
    | _ => some f
  return { p with fields, seen := number :: p.seen }

/-- Whether a tag other than that of a large number may stand on a node or list. -/
def tagPasses (number : Nat) (content : Item) : Bool :=
  tagFits number content && number != 2 && number != 3

mutual

def ofItem? : Item → Option Node
  | .map entries => do
    let p ← ofEntries? {} entries
    return node p.fields p.kids p.lists
  | .simple n => if isNil (.simple n) then some (node {} [] []) else none
  | .tag number content => if tagPasses number content then ofItem? content else none
  | _ => none

/-- Reads the entries of a map. Of repeated keys the first counts, and keys that select no field are
passed over. -/
def ofEntries? (p : Partial) : List Item → Option Partial
  | key :: value :: rest => do
    let number ← keyOf? key
    if p.seen.contains number then ofEntries? p rest
    else if number = 12 then do
      let kids ← kidsOf? value
      ofEntries? { p with kids, seen := 12 :: p.seen } rest
    else if number = 13 then do
      let lists ← listsOf? value
      ofEntries? { p with lists, seen := 13 :: p.seen } rest
    else do ofEntries? (← setField p number value) rest
  | _ => some p

def kidsOf? : Item → Option (List Node)
  | .array items => ofItems? items
  | .simple n => if isNil (.simple n) then some [] else none
  | .tag number content => if tagPasses number content then kidsOf? content else none
  | _ => none

def listsOf? : Item → Option (List (List Node))
  | .array items => ofLists? items
  | .simple n => if isNil (.simple n) then some [] else none
  | .tag number content => if tagPasses number content then listsOf? content else none
  | _ => none

/-- Children, of which an untagged null is none. -/
def ofItems? : List Item → Option (List Node)
  | [] => some []
  | i :: is => do
    let n ← if isNil i then some null else ofItem? i
    return n :: (← ofItems? is)

def ofLists? : List Item → Option (List (List Node))
  | [] => some []
  | i :: is => do
    let ns ← kidsOf? i
    return ns :: (← ofLists? is)

end

end Lsl.Node

namespace Lsl

inductive ScriptError where
  /-- The bytes are not well formed, or a field has the wrong type. -/
  | malformed
  | node (cause : NodeError)

def Script.encode (s : Script) : Bytes := (Node.ofScript s).encode

def Script.decode (bs : Bytes) : Except ScriptError Script :=
  match (Cbor.Item.ofBytes? bs).bind Node.ofItem? with
  | none => .error .malformed
  | some n => n.toScript.mapError .node

end Lsl
