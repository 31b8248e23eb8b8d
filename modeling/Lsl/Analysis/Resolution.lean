import Lsl.Analysis.Fault
import Lsl.Diagnostic

/-! The resolution of calls, jumps and state changes, which may mention names declared later. Names
are sought from the scope of the nearest block outward. -/
namespace Lsl

def undeclared (pos : Pos) (what name : String) : Diagnostic :=
  { pos, kind := .undefinedName, message := s!"{what} {name}" }

/-- The symbol that a use is bound to: the nearest that serves, else the one it had. -/
def rebind (chain : List Scope) (name : String) (want : SymbolKind) (entry : Option Symbol) :
    Option Symbol :=
  (Scope.lookupKind? chain name want).or entry

def rebindProblems (chain : List Scope) (name : String) (want : SymbolKind) (pos : Pos)
    (what : String) : List Diagnostic :=
  match Scope.lookupKind? chain name want with
  | some _ => []
  | none => [undeclared pos what name]

namespace Expr

mutual

def link (chain : List Scope) : Expr → Expr
  | missing => missing
  | int p n t => int p n t
  | float p x t => float p x t
  | string p s t => string p s t
  | vector p x y z t => vector p (link chain x) (link chain y) (link chain z) t
  | rotation p x y z s t =>
    rotation p (link chain x) (link chain y) (link chain z) (link chain s) t
  | list p es t => list p (linkAll chain es) t
  | ident v => ident v
  | unary p op x t => unary p op (link chain x) t
  | binary p op l r la ra t => binary p op (link chain l) (link chain r) la ra t
  | assign p op v x la ra t => assign p op v (link chain x) la ra t
  | incDec p d b v t => incDec p d b v t
  | cast p target x t => cast p target (link chain x) t
  | call p name args c t => call p name (linkAll chain args) (rebind chain name .function c) t
  | paren p x t => paren p (link chain x) t
  | print p x t => print p (link chain x) t

def linkAll (chain : List Scope) : List Expr → List Expr
  | [] => []
  | e :: es => link chain e :: linkAll chain es

end

mutual

/-- The complaints about the calls of an expression, those in its arguments first. -/
def linkProblems (chain : List Scope) : Expr → List Diagnostic
  | missing | int .. | float .. | string .. | ident _ | incDec .. => []
  | vector _ x y z _ => linkProblems chain x ++ linkProblems chain y ++ linkProblems chain z
  | rotation _ x y z s _ =>
    linkProblems chain x ++ linkProblems chain y ++ linkProblems chain z ++ linkProblems chain s
  | list _ es _ => linkAllProblems chain es
  | unary _ _ x _ => linkProblems chain x
  | binary _ _ l r _ _ _ => linkProblems chain l ++ linkProblems chain r
  | assign _ _ _ x _ _ _ => linkProblems chain x
  | cast _ _ x _ => linkProblems chain x
  | call p name args _ _ =>
    linkAllProblems chain args ++ rebindProblems chain name .function p "function"
  | paren _ x _ => linkProblems chain x
  | print _ x _ => linkProblems chain x

def linkAllProblems (chain : List Scope) : List Expr → List Diagnostic
  | [] => []
  | e :: es => linkProblems chain e ++ linkAllProblems chain es

end

end Expr

/-- The scopes that are searched from a block: its own and those around it. -/
def blockChain (scope : Option Scope) (around : List Scope) : List Scope :=
  match scope with
  | some s => s :: around
  | none => []

/-- The scopes around what stands in the body of a control statement. -/
def bodyAround (scope : Option Scope) (around : List Scope) : List Scope := scope.toList ++ around

namespace Stmt

mutual

/-- Binds the calls, jumps and state changes of a statement. Uses that stand in no nearer block are
sought in `here`; the scopes `around` a block also include those of control statements' bodies. -/
def link (here around : List Scope) : Stmt → Stmt
  | missing => missing
  | block p scope ss =>
    let chain := blockChain scope around
    block p scope (linkAll chain chain ss)
  | expr p x => expr p (x.link here)
  | decl p name ty init entry => decl p name ty (init.link here) entry
  | ifThen p c ts t es e =>
    ifThen p (c.link here) ts (link here (bodyAround ts around) t) es
      (link here (bodyAround es around) e)
  | .while p c bs b => .while p (c.link here) bs (link here (bodyAround bs around) b)
  | doWhile p bs b c => doWhile p bs (link here (bodyAround bs around) b) (c.link here)
  | .for p init c step bs b =>
    .for p (Expr.linkAll here init) (c.link here) (Expr.linkAll here step) bs
      (link here (bodyAround bs around) b)
  | jump p l entry => jump p l (rebind here l .label entry)
  | label p name entry => label p name entry
  | ret p v => ret p (v.link here)
  | goto p s entry => goto p s (rebind here s .state entry)
  | empty p => empty p

def linkAll (here around : List Scope) : List Stmt → List Stmt
  | [] => []
  | s :: ss => link here around s :: linkAll here around ss

end

mutual

def linkProblems (here around : List Scope) : Stmt → List Diagnostic
  | missing | label .. | empty _ => []
  | block _ scope ss =>
    let chain := blockChain scope around
    linkAllProblems chain chain ss
  | expr _ x => x.linkProblems here
  | decl _ _ _ init _ => init.linkProblems here
  | ifThen _ c ts t es e =>
    c.linkProblems here ++ linkProblems here (bodyAround ts around) t ++
      linkProblems here (bodyAround es around) e
  | .while _ c bs b => c.linkProblems here ++ linkProblems here (bodyAround bs around) b
  | doWhile _ bs b c => linkProblems here (bodyAround bs around) b ++ c.linkProblems here
  | .for _ init c step bs b =>
    Expr.linkAllProblems here init ++ c.linkProblems here ++ Expr.linkAllProblems here step ++
      linkProblems here (bodyAround bs around) b
  | jump p l _ => rebindProblems here l .label p "label"
  | ret _ v => v.linkProblems here
  | goto p s _ => rebindProblems here s .state p "state"

def linkAllProblems (here around : List Scope) : List Stmt → List Diagnostic
  | [] => []
  | s :: ss => linkProblems here around s ++ linkAllProblems here around ss

end

end Stmt

/-- A part of a script with its notes, and what was found in it. -/
abbrev Noted (α : Type) := α × List Diagnostic

def notedAll (step : α → Except Fault (Noted α)) : List α → Except Fault (Noted (List α))
  | [] => .ok ([], [])
  | a :: as => do
    let (a, ds) ← step a
    let (as, more) ← notedAll step as
    return (a :: as, ds ++ more)

namespace Script

def resolveBody (around : List Scope) (body : Option Block) : Except Fault (Noted (Option Block)) := do
  let b ← Fault.missing.need body
  let chain := blockChain b.scope around
  return (some { b with stmts := Stmt.linkAll chain chain b.stmts },
    Stmt.linkAllProblems chain chain b.stmts)

def resolveGlobal (around : List Scope) : Global → Except Fault (Noted Global)
  | .missing => .ok (.missing, [])
  | .var v => .ok (.var { v with init := v.init.link around }, v.init.linkProblems around)
  | .function f => do
    let (body, ds) ← resolveBody around f.body
    return (.function { f with body }, ds)

def resolveHandler (around : List Scope) (h : Option Handler) : Except Fault (Noted (Option Handler)) := do
  let h ← Fault.missing.need h
  let (body, ds) ← resolveBody around h.body
  return (some { h with body }, ds)

def resolveState (around : List Scope) (s : Option State) : Except Fault (Noted (Option State)) := do
  let s ← Fault.missing.need s
  let (events, ds) ← notedAll (resolveHandler (s.scope.toList ++ around)) s.events
  return (some { s with events }, ds)

def resolve (s : Script) : Except Fault (Noted Script) := do
  let around := s.scope.toList
  let (globals, ds) ← notedAll (resolveGlobal around) s.globals
  let (states, more) ← notedAll (resolveState around) s.states
  return ({ s with globals, states }, ds ++ more)

end Script
end Lsl
