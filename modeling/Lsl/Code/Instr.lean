import Lsl.Code.Value
import Lsl.Language.Operator

/-! Instructions of a body: a flat sequence of typed operations on a stack of values. Branches name
their targets by labels; each of the outputs resolves them in its own way. -/
namespace Lsl

/-- The number of a branch target inside one body. -/
abbrev Label := Int

/-- The callee of a call and the arguments it takes from the stack. -/
structure CallTarget where
  /-- Whether the callee is a library function. -/
  library : Bool
  index : Int
  name : String
  result : Ty
  params : List Ty
  argBytes : Int
deriving DecidableEq

/-- One instruction. A component access names a member of a vector or rotation; the empty member
stands for the whole variable. -/
inductive Instr where
  | nop
  /-- Pushes a constant. -/
  | pushConst (value : Value)
  /-- Pushes the initial value of a type. -/
  | pushEmpty (t : Ty)
  | pushLocal (t : Ty) (offset : Int32) (member : String)
  | pushGlobal (t : Ty) (offset : Int32) (member : String)
  /-- Stores the top of the stack in a variable, and leaves it there too if `keep` is set. -/
  | store (isGlobal : Bool) (t : Ty) (offset : Int32) (member : String) (keep : Bool)
  | pop (t : Ty)
  | unary (op : Operator) (t : Ty)
  | binary (op : Operator) (left right : Ty)
  | cast (source target : Ty)
  /-- Collapses the topmost values into a list. -/
  | toList (count : Int)
  /-- Assembles a vector or rotation from its components. -/
  | build (t : Ty)
  | label (l : Label)
  | jump (l : Label)
  | jumpIf (t : Ty) (l : Label)
  | jumpNot (t : Ty) (l : Label)
  /-- Reserves the slot of a result and saves the frame. -/
  | callBegin (t : Ty)
  | call (target : CallTarget)
  /-- Reserves the locals of a body. -/
  | enterFrame (bytes : Int)
  /-- Moves the top of the stack into the slot of the result. -/
  | returnValue (t : Ty)
  /-- Removes the variables of a frame, the last one first. -/
  | unwind (types : List Ty)
  | ret
  | state (index : Int) (name : String)
  | print (t : Ty)
  /-- A code outside the set, counted from the first free one. -/
  | unknown (n : Fin 232)

namespace Instr

def opName : Instr → String
  | nop => "nop"
  | pushConst _ => "push.const"
  | pushEmpty _ => "push.empty"
  | pushLocal .. => "push.local"
  | pushGlobal .. => "push.global"
  | store .. => "store"
  | pop _ => "pop"
  | unary .. => "unary"
  | binary .. => "binary"
  | cast .. => "cast"
  | toList _ => "tolist"
  | build _ => "build"
  | label _ => "label"
  | jump _ => "jump"
  | jumpIf .. => "jumpif"
  | jumpNot .. => "jumpnot"
  | callBegin _ => "call.begin"
  | call _ => "call"
  | enterFrame _ => "enter"
  | returnValue _ => "retval"
  | unwind _ => "unwind"
  | ret => "return"
  | state .. => "state"
  | print _ => "print"
  | unknown n => s!"Op({n.val + 24})"

def isBranch : Instr → Bool
  | jump _ | jumpIf .. | jumpNot .. => true
  | _ => false

def operands : Instr → List String
  | pushConst v => [v.ty.name, v.text]
  | pushEmpty t | pop t | print t | returnValue t | callBegin t | build t => [t.name]
  | pushLocal t o m | pushGlobal t o m => [t.name, toString o.toInt ++ memberText m]
  | store g t o m k =>
    [if g then "global" else "local", t.name, toString o.toInt ++ memberText m] ++
      if k then ["keep"] else []
  | unary op t => [op.symbol, t.name]
  | binary op l r => [op.symbol, l.name ++ "," ++ r.name]
  | cast s t => [s.name ++ "->" ++ t.name]
  | toList n | enterFrame n => [toString n]
  | label l | jump l => ["L" ++ toString l]
  | jumpIf t l | jumpNot t l => [t.name, "L" ++ toString l]
  | call c =>
    [if c.library then "lib" else "fn", toString c.index, c.name, "args=" ++ toString c.argBytes]
  | unwind ts => [Ty.letters ts]
  | state i n => [toString i, n]
  | nop | ret | unknown _ => []
where
  memberText (m : String) : String := if m = "" then "" else "." ++ m

def text (i : Instr) : String := " ".intercalate (i.opName :: i.operands)

end Instr

/-- The components of vectors and rotations, in the order in which they are stored. -/
def componentNames : List String := ["x", "y", "z", "s"]

def componentIndex? (member : String) : Option Nat := componentNames.findIdx? (· == member)

/-- The byte offset of a component inside its variable. -/
def componentOffset? (member : String) : Option Int32 :=
  (componentIndex? member).map fun i => Int32.ofNat (4 * i)

end Lsl
