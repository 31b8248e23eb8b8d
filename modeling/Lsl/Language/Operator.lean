import Lsl.Language.Ty

/-! Operators, the operand types they take, and the numeric promotion of their operands. -/
namespace Lsl

/-- An operator, `none`, or a code outside the language, counted from the first free code. -/
inductive Operator where
  | none
  | add
  | sub
  | mul
  | div
  | mod
  | eq
  | neq
  | leq
  | geq
  | less
  | greater
  | bitAnd
  | bitOr
  | bitXor
  | boolAnd
  | boolOr
  | shl
  | shr
  | neg
  | bitNot
  | boolNot
  | unknown (n : Fin 234)
deriving DecidableEq

namespace Operator

def binaries : List Operator :=
  [add, sub, mul, div, mod, eq, neq, leq, geq, less, greater, bitAnd, bitOr, bitXor, boolAnd,
    boolOr, shl, shr]

def unaries : List Operator := [neg, bitNot, boolNot]

/-- The number that stands for the operator in a stored tree. -/
def code : Operator → Nat
  | none => 0
  | add => 1
  | sub => 2
  | mul => 3
  | div => 4
  | mod => 5
  | eq => 6
  | neq => 7
  | leq => 8
  | geq => 9
  | less => 10
  | greater => 11
  | bitAnd => 12
  | bitOr => 13
  | bitXor => 14
  | boolAnd => 15
  | boolOr => 16
  | shl => 17
  | shr => 18
  | neg => 19
  | bitNot => 20
  | boolNot => 21
  | unknown n => n.val + 22

/-- The operator with a code; codes count modulo 256. -/
def ofCode (n : Nat) : Operator :=
  match n % 256 with
  | 0 => none
  | 1 => add
  | 2 => sub
  | 3 => mul
  | 4 => div
  | 5 => mod
  | 6 => eq
  | 7 => neq
  | 8 => leq
  | 9 => geq
  | 10 => less
  | 11 => greater
  | 12 => bitAnd
  | 13 => bitOr
  | 14 => bitXor
  | 15 => boolAnd
  | 16 => boolOr
  | 17 => shl
  | 18 => shr
  | 19 => neg
  | 20 => bitNot
  | 21 => boolNot
  | k + 22 => unknown (Fin.ofNat 234 k)

def symbol : Operator → String
  | none => "Operator(0)"
  | add => "+"
  | sub => "-"
  | mul => "*"
  | div => "/"
  | mod => "%"
  | eq => "=="
  | neq => "!="
  | leq => "<="
  | geq => ">="
  | less => "<"
  | greater => ">"
  | bitAnd => "&"
  | bitOr => "|"
  | bitXor => "^"
  | boolAnd => "&&"
  | boolOr => "||"
  | shl => "<<"
  | shr => ">>"
  | neg => "-"
  | bitNot => "~"
  | boolNot => "!"
  | unknown n => s!"Operator({n.val + 22})"

def isBinary (o : Operator) : Bool := o ∈ binaries

def isUnary (o : Operator) : Bool := o ∈ unaries

def binaryOfSymbol? (s : String) : Option Operator := binaries.find? (·.symbol == s)

def unaryOfSymbol? (s : String) : Option Operator := unaries.find? (·.symbol == s)

/-- The result of arithmetic on two numbers: an integer only if both are. -/
def numericResult? : Ty → Ty → Option Ty
  | .integer, .integer => some .integer
  | .integer, .float | .float, .integer | .float, .float => some .float
  | _, _ => Option.none

def orderResult? (l r : Ty) : Option Ty := (numericResult? l r).map fun _ => .integer

/-- The result of an operation on two integers only. -/
def integerResult? : Ty → Ty → Option Ty
  | .integer, .integer => some .integer
  | _, _ => Option.none

/-- The result of a test for equality: numbers, texts and keys compare among themselves, vectors,
rotations and lists each with their own kind. -/
def equalityResult? : Ty → Ty → Option Ty
  | .string, .string | .string, .key | .key, .string | .key, .key => some .integer
  | .vector, .vector | .rotation, .rotation | .list, .list => some .integer
  | l, r => orderResult? l r

/-- The result type of `l op r`, if the operands are legal. -/
def binaryResult? (op : Operator) (l r : Ty) : Option Ty :=
  match op with
  | add =>
    match l, r with
    | .string, .string => some .string
    | .vector, .vector => some .vector
    | .rotation, .rotation => some .rotation
    | .list, t | t, .list => if t ≠ .void ∧ t.isKnown then some .list else Option.none
    | l, r => numericResult? l r
  | sub =>
    match l, r with
    | .vector, .vector => some .vector
    | .rotation, .rotation => some .rotation
    | l, r => numericResult? l r
  | mul =>
    match l, r with
    | .vector, .vector => some .float
    | .vector, .integer | .vector, .float | .integer, .vector | .float, .vector => some .vector
    | .vector, .rotation => some .vector
    | .rotation, .rotation => some .rotation
    | l, r => numericResult? l r
  | div =>
    match l, r with
    | .vector, .integer | .vector, .float => some .vector
    | .vector, .rotation => some .vector
    | .rotation, .rotation => some .rotation
    | l, r => numericResult? l r
  | mod =>
    match l, r with
    | .vector, .vector => some .vector
    | l, r => integerResult? l r
  | eq | neq => equalityResult? l r
  | leq | geq | less | greater => orderResult? l r
  | bitAnd | bitOr | bitXor | boolAnd | boolOr | shl | shr => integerResult? l r
  | _ => Option.none

/-- The result type of a unary operator, if the operand is legal. -/
def unaryResult? (op : Operator) (t : Ty) : Option Ty :=
  match op, t with
  | neg, .integer | neg, .float | neg, .vector | neg, .rotation => some t
  | bitNot, .integer | boolNot, .integer => some .integer
  | _, _ => Option.none

/-- The types with which the operands of a legal operation are evaluated: an integer beside a float,
or one that scales a vector, becomes a float. -/
def promote (op : Operator) (l r : Ty) : Ty × Ty :=
  match l, r with
  | .integer, .float | .float, .integer => (.float, .float)
  | .vector, .integer => if op = mul ∨ op = div then (.vector, .float) else (l, r)
  | .integer, .vector => if op = mul then (.float, .vector) else (l, r)
  | _, _ => (l, r)

end Operator
end Lsl
