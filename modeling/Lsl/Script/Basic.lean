import Lsl.Language.Event
import Lsl.Language.Operator
import Lsl.Scope.Basic
import Lsl.Single.Basic

/-! Scripts as trees. A reader supplies names, types, operators, literals and positions; the fields
marked as notes are filled in by the analyses. A child may be missing, which the first analysis
reports. -/
namespace Lsl

structure Pos where
  line : Int := 0
  column : Int := 0
deriving DecidableEq

/-- A variable that is read or assigned, or the component of it that `member` names. -/
structure Ident where
  pos : Pos
  name : String
  member : String
  /-- Note: the variable. -/
  entry : Option Symbol := none
  /-- Note: the type of the variable or component. -/
  ty : Ty := .void
deriving DecidableEq

def incDecMark (decrement : Bool) : String := if decrement then "--" else "++"

/-- Expressions. The last field of each is a note of its type; binary operations and assignments
also note the types with which their operands are evaluated, and calls their callee. -/
inductive Expr where
  | missing
  | int (pos : Pos) (value : Int32) (ty : Ty)
  | float (pos : Pos) (value : Single) (ty : Ty)
  | string (pos : Pos) (value : String) (ty : Ty)
  | vector (pos : Pos) (x y z : Expr) (ty : Ty)
  | rotation (pos : Pos) (x y z s : Expr) (ty : Ty)
  | list (pos : Pos) (elements : List Expr) (ty : Ty)
  | ident (v : Ident)
  | unary (pos : Pos) (op : Operator) (operand : Expr) (ty : Ty)
  | binary (pos : Pos) (op : Operator) (left right : Expr) (leftAs rightAs ty : Ty)
  /-- Assignment; with an operator, the target is also the left operand. -/
  | assign (pos : Pos) (op : Operator) (target : Option Ident) (value : Expr)
      (leftAs rightAs ty : Ty)
  | incDec (pos : Pos) (decrement before : Bool) (target : Option Ident) (ty : Ty)
  | cast (pos : Pos) (target : Ty) (operand : Expr) (ty : Ty)
  | call (pos : Pos) (name : String) (args : List Expr) (callee : Option Symbol) (ty : Ty)
  | paren (pos : Pos) (inner : Expr) (ty : Ty)
  | print (pos : Pos) (value : Expr) (ty : Ty)
deriving Inhabited

namespace Expr

def pos : Expr → Pos
  | missing => {}
  | int p .. | float p .. | string p .. | vector p .. | rotation p .. | list p .. => p
  | ident v => v.pos
  | unary p .. | binary p .. | assign p .. | incDec p .. | cast p .. | call p .. => p
  | paren p .. | print p .. => p

def ty : Expr → Ty
  | missing => .void
  | int _ _ t | float _ _ t | string _ _ t => t
  | vector _ _ _ _ t | rotation _ _ _ _ _ t | list _ _ t => t
  | ident v => v.ty
  | unary _ _ _ t | binary _ _ _ _ _ _ t | assign _ _ _ _ _ _ t | incDec _ _ _ _ t => t
  | cast _ _ _ t | call _ _ _ _ t | paren _ _ t | print _ _ t => t

def isMissing : Expr → Bool
  | missing => true
  | _ => false

end Expr

/-- Statements. A block notes its scope. The body of a control statement notes the scope opened
for it when it is neither a block, which has its own, nor a bare label, which belongs to the scope
around. -/
inductive Stmt where
  | missing
  | block (pos : Pos) (scope : Option Scope) (stmts : List Stmt)
  | expr (pos : Pos) (x : Expr)
  | decl (pos : Pos) (name : String) (ty : Ty) (init : Expr) (entry : Option Symbol)
  | ifThen (pos : Pos) (cond : Expr) (thenScope : Option Scope) (thenBody : Stmt)
      (elseScope : Option Scope) (elseBody : Stmt)
  | while (pos : Pos) (cond : Expr) (scope : Option Scope) (body : Stmt)
  | doWhile (pos : Pos) (scope : Option Scope) (body : Stmt) (cond : Expr)
  | for (pos : Pos) (init : List Expr) (cond : Expr) (step : List Expr) (scope : Option Scope)
      (body : Stmt)
  | jump (pos : Pos) (label : String) (entry : Option Symbol)
  | label (pos : Pos) (name : String) (entry : Option Symbol)
  | ret (pos : Pos) (value : Expr)
  | goto (pos : Pos) (state : String) (entry : Option Symbol)
  | empty (pos : Pos)
deriving Inhabited

namespace Stmt

def pos : Stmt → Pos
  | missing => {}
  | block p .. | expr p .. | decl p .. | ifThen p .. | .while p .. | doWhile p .. | .for p .. => p
  | jump p .. | label p .. | ret p .. | goto p .. | empty p => p

def isMissing : Stmt → Bool
  | missing => true
  | _ => false

end Stmt

structure Block where
  pos : Pos
  /-- Note: the scope of the parameters and of the statements at the top level. -/
  scope : Option Scope := none
  stmts : List Stmt

structure Param where
  pos : Pos
  name : String
  ty : Ty
  /-- Note: the variable. -/
  entry : Option Symbol := none
deriving DecidableEq

structure GlobalVar where
  pos : Pos
  name : String
  ty : Ty
  init : Expr
  /-- Note: the variable. -/
  entry : Option Symbol := none

structure Function where
  pos : Pos
  name : String
  result : Ty
  params : List Param
  body : Option Block
  /-- Note: the function. -/
  entry : Option Symbol := none

inductive Global where
  | missing
  | var (v : GlobalVar)
  | function (f : Function)

structure Handler where
  pos : Pos
  name : String
  params : List Param
  body : Option Block
  /-- Note: the event. -/
  kind : EventKind := ⟨0⟩
  /-- Note: the handler. -/
  entry : Option Symbol := none

structure State where
  pos : Pos
  name : String
  events : List (Option Handler)
  /-- Note: the state. -/
  entry : Option Symbol := none
  /-- Note: the scope of the handlers. -/
  scope : Option Scope := none

/-- A script. Its first state is the default one. -/
structure Script where
  pos : Pos
  globals : List Global
  states : List (Option State)
  /-- Note: the outermost scope. -/
  scope : Option Scope := none

namespace Script

def functions (s : Script) : List Function := s.globals.filterMap fun
  | .function f => some f
  | _ => none

def globalVars (s : Script) : List GlobalVar := s.globals.filterMap fun
  | .var v => some v
  | _ => none

end Script

def paramTypes (ps : List Param) : List Ty := ps.map (·.ty)

end Lsl
