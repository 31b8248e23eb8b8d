import Lsl.Script.Basic
import Lsl.Single.Decimal

/-! Source text of a script. -/
namespace Lsl

def Ident.source (v : Ident) : String :=
  if v.member = "" then v.name else v.name ++ "." ++ v.member

/-- The text that stands for a missing expression. -/
def missingSource : String := "<<nil>>"

def targetSource : Option Ident → String
  | some v => v.source
  | none => missingSource

mutual

def Expr.source : Expr → String
  | .missing => missingSource
  | .int _ n _ => toString n.toInt
  | .float _ x _ => x.literal
  | .string _ s _ => Text.quote s
  | .vector _ x y z _ => "<" ++ x.source ++ ", " ++ y.source ++ ", " ++ z.source ++ ">"
  | .rotation _ x y z s _ =>
    "<" ++ x.source ++ ", " ++ y.source ++ ", " ++ z.source ++ ", " ++ s.source ++ ">"
  | .list _ es _ => "[" ++ ", ".intercalate (Expr.sources es) ++ "]"
  | .ident v => v.source
  | .unary _ op x _ => op.symbol ++ x.source
  | .binary _ op l r _ _ _ => l.source ++ " " ++ op.symbol ++ " " ++ r.source
  | .assign _ op t x _ _ _ =>
    targetSource t ++ (if op = .none then " = " else " " ++ op.symbol ++ "= ") ++ x.source
  | .incDec _ d before t _ =>
    if before then incDecMark d ++ targetSource t else targetSource t ++ incDecMark d
  | .cast _ target x _ => "(" ++ target.name ++ ")" ++ x.source
  | .call _ name args _ _ => name ++ "(" ++ ", ".intercalate (Expr.sources args) ++ ")"
  | .paren _ x _ => "(" ++ x.source ++ ")"
  | .print _ x _ => "print(" ++ x.source ++ ")"

def Expr.sources : List Expr → List String
  | [] => []
  | e :: es => e.source :: Expr.sources es

end

def sourceLine (depth : Nat) (s : String) : String :=
  String.ofList (List.replicate (4 * depth) ' ') ++ s ++ "\n"

def sourceBlock (depth : Nat) (inner : String) : String :=
  sourceLine depth "\x7b" ++ inner ++ sourceLine depth "\x7d"

def declarationSource (ty : Ty) (name : String) (init : Expr) : String :=
  match init with
  | .missing => ty.name ++ " " ++ name ++ ";"
  | e => ty.name ++ " " ++ name ++ " = " ++ e.source ++ ";"

/-- The depth of a statement: as the body of a control statement it stands one deeper. -/
def stmtDepth (asBody : Bool) (depth : Nat) : Nat := if asBody then depth + 1 else depth

mutual

/-- The lines of a statement. A block stands at the given depth even as a body. -/
def Stmt.source (asBody : Bool) (depth : Nat) : Stmt → String
  | .missing => ""
  | .block _ _ ss => sourceBlock depth (Stmt.sources (depth + 1) ss)
  | .expr _ x => sourceLine (stmtDepth asBody depth) (x.source ++ ";")
  | .decl _ name ty init _ =>
    sourceLine (stmtDepth asBody depth) (declarationSource ty name init)
  | .ifThen _ c _ t _ e =>
    let d := stmtDepth asBody depth
    sourceLine d ("if (" ++ c.source ++ ")") ++ t.source true d ++
      if e.isMissing then "" else sourceLine d "else" ++ e.source true d
  | .while _ c _ b =>
    let d := stmtDepth asBody depth
    sourceLine d ("while (" ++ c.source ++ ")") ++ b.source true d
  | .doWhile _ _ b c =>
    let d := stmtDepth asBody depth
    sourceLine d "do" ++ b.source true d ++ sourceLine d ("while (" ++ c.source ++ ");")
  | .for _ init c step _ b =>
    let d := stmtDepth asBody depth
    sourceLine d ("for (" ++ ", ".intercalate (Expr.sources init) ++ "; " ++
      (if c.isMissing then "" else c.source) ++ "; " ++
      ", ".intercalate (Expr.sources step) ++ ")") ++ b.source true d
  | .jump _ l _ => sourceLine (stmtDepth asBody depth) ("jump " ++ l ++ ";")
  | .label _ n _ => sourceLine (stmtDepth asBody depth) ("@" ++ n ++ ";")
  | .ret _ v =>
    sourceLine (stmtDepth asBody depth)
      (if v.isMissing then "return;" else "return " ++ v.source ++ ";")
  | .goto _ s _ => sourceLine (stmtDepth asBody depth) ("state " ++ s ++ ";")
  | .empty _ => sourceLine (stmtDepth asBody depth) ";"

def Stmt.sources (depth : Nat) : List Stmt → String
  | [] => ""
  | s :: ss => s.source false depth ++ Stmt.sources depth ss

end

def Block.source (depth : Nat) (b : Block) : String :=
  sourceBlock depth (Stmt.sources (depth + 1) b.stmts)

def paramsSource (ps : List Param) : String :=
  ", ".intercalate (ps.map fun p => p.ty.name ++ " " ++ p.name)

def bodySource (depth : Nat) (b : Option Block) : String := (b.map (·.source depth)).getD ""

def Function.source (f : Function) : String :=
  let head := f.name ++ "(" ++ paramsSource f.params ++ ")"
  "\n" ++ sourceLine 0 (if f.result = .void then head else f.result.name ++ " " ++ head) ++
    bodySource 0 f.body

def Global.source : Global → String
  | .missing => ""
  | .var v => sourceLine 0 (declarationSource v.ty v.name v.init)
  | .function f => f.source

def Handler.source (h : Handler) : String :=
  sourceLine 1 (h.name ++ "(" ++ paramsSource h.params ++ ")") ++ bodySource 1 h.body

/-- A state; its handlers are parted by empty lines. -/
def State.source (s : State) : String :=
  "\n" ++ sourceLine 0 (if s.name = "default" then "default" else "state " ++ s.name) ++
    sourceBlock 0 ("\n".intercalate (s.events.map fun h => (h.map Handler.source).getD ""))

def Script.source (s : Script) : String :=
  String.join (s.globals.map Global.source) ++
    String.join (s.states.map fun st => (st.map State.source).getD "")

end Lsl
