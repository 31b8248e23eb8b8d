import Lsl.Script.Basic

/-! All expressions of a script, each before its parts, in the order of the source. The target of an
assignment counts as an expression. -/
namespace Lsl

namespace Expr

def ofTarget (v : Option Ident) : List Expr := (v.map ident).toList

mutual

def parts : Expr → List Expr
  | missing => []
  | int p n t => [int p n t]
  | float p x t => [float p x t]
  | string p s t => [string p s t]
  | vector p x y z t => vector p x y z t :: parts x ++ parts y ++ parts z
  | rotation p x y z s t => rotation p x y z s t :: parts x ++ parts y ++ parts z ++ parts s
  | list p es t => list p es t :: partsAll es
  | ident v => [ident v]
  | unary p op x t => unary p op x t :: parts x
  | binary p op l r la ra t => binary p op l r la ra t :: parts l ++ parts r
  | assign p op v x la ra t => assign p op v x la ra t :: ofTarget v ++ parts x
  | incDec p d b v t => incDec p d b v t :: ofTarget v
  | cast p target x t => cast p target x t :: parts x
  | call p name args c t => call p name args c t :: partsAll args
  | paren p x t => paren p x t :: parts x
  | print p x t => print p x t :: parts x

def partsAll : List Expr → List Expr
  | [] => []
  | e :: es => parts e ++ partsAll es

end

end Expr

namespace Stmt

mutual

def exprs : Stmt → List Expr
  | missing | jump .. | label .. | goto .. | empty _ => []
  | block _ _ ss => exprsAll ss
  | expr _ x => x.parts
  | decl _ _ _ init _ => init.parts
  | ifThen _ c _ t _ e => c.parts ++ exprs t ++ exprs e
  | .while _ c _ b => c.parts ++ exprs b
  | doWhile _ _ b c => exprs b ++ c.parts
  | .for _ init c step _ b => Expr.partsAll init ++ c.parts ++ Expr.partsAll step ++ exprs b
  | ret _ v => v.parts

def exprsAll : List Stmt → List Expr
  | [] => []
  | s :: ss => exprs s ++ exprsAll ss

end

end Stmt

namespace Script

def bodyExprs (b : Option Block) : List Expr := (b.map fun b => Stmt.exprsAll b.stmts).getD []

def exprs (s : Script) : List Expr :=
  (s.globals.flatMap fun
    | .missing => []
    | .var v => v.init.parts
    | .function f => bodyExprs f.body) ++
  s.states.flatMap fun
    | none => []
    | some st => st.events.flatMap fun
      | none => []
      | some h => bodyExprs h.body

end Script
end Lsl
