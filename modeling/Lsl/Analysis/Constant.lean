import Lsl.Code.Instr
import Lsl.Script.Basic

/-! Constant expressions: literals, their negations, globals whose initial value is known, and the
vectors, rotations and lists made of these. -/
namespace Lsl

/-- The initial value of a global. A vector has a fourth place, like a rotation, that no vector shows;
negation turns its sign as well. -/
structure Constant where
  value : Value
  fourth : Single := .zero

/-- The initial values of globals that are known, by declaration run and number. -/
abbrev Constants := List ((Nat × Nat) × Constant)

def Constants.constant? (cs : Constants) (s : Symbol) : Option Constant :=
  if s.kind = .global then cs.lookup (s.round, s.index) else none

def Constants.value? (cs : Constants) (s : Symbol) : Option Value :=
  (cs.constant? s).map (·.value)

namespace Value

def neg? : Value → Option Value
  | integer n => some (integer (-n))
  | float x => some (float x.neg)
  | vector x y z => some (vector x.neg y.neg z.neg)
  | rotation x y z s => some (rotation x.neg y.neg z.neg s.neg)
  | _ => none

def toComponent? : Value → Option Single
  | integer n => some (Single.ofInt n.toInt)
  | float x => some x
  | _ => none

mutual

/-- A constant as the text that a cast to string gives. -/
def plainText : Value → String
  | integer n => toString n.toInt
  | float x => x.fixed 6
  | string s | key s => s
  | vector x y z => brackets (Single.fixed 5) [x, y, z]
  | rotation x y z s => brackets (Single.fixed 5) [x, y, z, s]
  | list vs => plainTexts vs
  | void | unknown _ => ""

def plainTexts : List Value → String
  | [] => ""
  | v :: vs => plainText v ++ plainTexts vs

end

/-- The conversion of a constant to the type of the variable that it initializes. -/
def convert? (v : Value) (target : Ty) : Option Value :=
  if v.ty = target then some v
  else match target, v with
    | .float, integer n => some (float (Single.ofInt n.toInt))
    | .key, string s => some (key s)
    | .string, void => none
    | .string, v => some (string v.plainText)
    | .list, void => none
    | .list, v => some (list [v])
    | _, _ => none

end Value

def Constant.component? (c : Constant) (member : String) : Option Value := do
  let i ← componentIndex? member
  match c.value with
  | .vector x y z => return .float ([x, y, z, c.fourth].getD i .zero)
  | .rotation x y z s => return .float ([x, y, z, s].getD i .zero)
  | _ => none

namespace Expr

/-- The fourth place of a constant vector. -/
def fourth (cs : Constants) : Expr → Single
  | paren _ x _ => fourth cs x
  | unary _ _ x _ => (fourth cs x).neg
  | ident v => ((v.entry.bind cs.constant?).map (·.fourth)).getD .zero
  | _ => .zero

def isElement (v : Value) : Bool := v.ty != .list

mutual

def fold (cs : Constants) : Expr → Option Value
  | int _ n _ => some (.integer n)
  | float _ x _ => some (.float x)
  | string _ s _ => some (.string s)
  | paren _ x _ => fold cs x
  | unary _ op x _ =>
    if op = .neg then (fold cs x).bind Value.neg? else none
  | ident v =>
    match v.entry.bind cs.constant? with
    | none => none
    | some c => if v.member = "" then some c.value else c.component? v.member
  | vector _ x y z _ => do
    let x ← (fold cs x).bind Value.toComponent?
    let y ← (fold cs y).bind Value.toComponent?
    let z ← (fold cs z).bind Value.toComponent?
    return .vector x y z
  | rotation _ x y z s _ => do
    let x ← (fold cs x).bind Value.toComponent?
    let y ← (fold cs y).bind Value.toComponent?
    let z ← (fold cs z).bind Value.toComponent?
    let s ← (fold cs s).bind Value.toComponent?
    return .rotation x y z s
  | list _ es _ => (foldAll cs es).map .list
  | missing | binary .. | assign .. | incDec .. | cast .. | call .. | print .. => none

/-- The values of constant expressions that may stand in a list. -/
def foldAll (cs : Constants) : List Expr → Option (List Value)
  | [] => some []
  | e :: es => do
    let v ← (fold cs e).filter isElement
    return v :: (← foldAll cs es)

end

end Expr
end Lsl
