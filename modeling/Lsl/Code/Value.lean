import Lsl.Language.Ty
import Lsl.Single.Decimal

/-! Constants of a compiled script. -/
namespace Lsl

/-- A constant. A constant of an unknown type holds nothing but its tag. -/
inductive Value where
  | void
  | integer (n : Int32)
  | float (x : Single)
  | string (s : String)
  | key (s : String)
  | vector (x y z : Single)
  | rotation (x y z s : Single)
  | list (elements : List Value)
  | unknown (n : Fin 248)
deriving Inhabited

namespace Value

def ty : Value → Ty
  | void => .void
  | integer _ => .integer
  | float _ => .float
  | string _ => .string
  | key _ => .key
  | vector .. => .vector
  | rotation .. => .rotation
  | list _ => .list
  | unknown n => .unknown n

/-- The initial value of a variable: zero, empty, or the rotation that turns nothing. -/
def zero : Ty → Value
  | .void => void
  | .integer => integer 0
  | .float => float .zero
  | .string => string ""
  | .key => key ""
  | .vector => vector .zero .zero .zero
  | .rotation => rotation .zero .zero .zero .one
  | .list => list []
  | .unknown n => unknown n

def brackets (render : Single → String) (xs : List Single) : String :=
  "<" ++ ", ".intercalate (xs.map render) ++ ">"

mutual

def text : Value → String
  | integer n => toString n.toInt
  | float x => x.general
  | string s | key s => Text.quote s
  | vector x y z => brackets Single.general [x, y, z]
  | rotation x y z s => brackets Single.general [x, y, z, s]
  | list vs => "[" ++ ", ".intercalate (texts vs) ++ "]"
  | void | unknown _ => "void"

def texts : List Value → List String
  | [] => []
  | v :: vs => text v :: texts vs

end

end Value
end Lsl
