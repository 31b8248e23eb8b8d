import Lsl.Diagnostic
import Lsl.Library.Basic

/-! The declaration of names. One walk over a script opens a scope for the script, each function,
state, handler and block, and each body of a control statement that is neither a block nor a bare
label. It declares every name in the scope that is open there and binds every variable to the
nearest declaration before it, so that an initial value does not see the variable it initializes. -/
namespace Lsl

def malformed (pos : Pos) (message : String) : Diagnostic :=
  { pos, kind := .malformedTree, message }

namespace Ident

def bind (chain : List Scope) (v : Ident) : Ident :=
  match Scope.lookupKind? chain v.name .local with
  | some s => { v with entry := some s }
  | none => v

def bindProblems (chain : List Scope) (v : Ident) : List Diagnostic :=
  match Scope.lookupKind? chain v.name .local with
  | some _ => []
  | none => [{ pos := v.pos, kind := .undefinedName, message := v.name }]

/-- The complaints about the target of an assignment at `pos`. -/
def targetProblems (chain : List Scope) (pos : Pos) : Option Ident → List Diagnostic
  | none => [malformed pos "assignment without target"]
  | some v => v.bindProblems chain

end Ident

namespace Expr

mutual

def bind (chain : List Scope) : Expr → Expr
  | missing => missing
  | int p n t => int p n t
  | float p x t => float p x t
  | string p s t => string p s t
  | vector p x y z t => vector p (bind chain x) (bind chain y) (bind chain z) t
  | rotation p x y z s t =>
    rotation p (bind chain x) (bind chain y) (bind chain z) (bind chain s) t
  | list p es t => list p (bindAll chain es) t
  | ident v => ident (v.bind chain)
  | unary p op x t => unary p op (bind chain x) t
  | binary p op l r la ra t => binary p op (bind chain l) (bind chain r) la ra t
  | assign p op v x la ra t => assign p op (v.map (·.bind chain)) (bind chain x) la ra t
  | incDec p d b v t => incDec p d b (v.map (·.bind chain)) t
  | cast p target x t => cast p target (bind chain x) t
  | call p name args c t => call p name (bindAll chain args) c t
  | paren p x t => paren p (bind chain x) t
  | print p x t => print p (bind chain x) t

def bindAll (chain : List Scope) : List Expr → List Expr
  | [] => []
  | e :: es => bind chain e :: bindAll chain es

end

mutual

/-- The complaints about the variables of an expression and about missing parts of it. The value of
an assignment is looked at before its target. -/
def bindProblems (chain : List Scope) : Expr → List Diagnostic
  | missing => [malformed {} "nil expression"]
  | int .. | float .. | string .. => []
  | vector _ x y z _ => bindProblems chain x ++ bindProblems chain y ++ bindProblems chain z
  | rotation _ x y z s _ =>
    bindProblems chain x ++ bindProblems chain y ++ bindProblems chain z ++ bindProblems chain s
  | list _ es _ => bindAllProblems chain es
  | ident v => v.bindProblems chain
  | unary _ _ x _ => bindProblems chain x
  | binary _ _ l r _ _ _ => bindProblems chain l ++ bindProblems chain r
  | assign p _ v x _ _ _ => bindProblems chain x ++ Ident.targetProblems chain p v
  | incDec p _ _ v _ => Ident.targetProblems chain p v
  | cast _ _ x _ => bindProblems chain x
  | call _ _ args _ _ => bindAllProblems chain args
  | paren _ x _ => bindProblems chain x
  | print _ x _ => bindProblems chain x

def bindAllProblems (chain : List Scope) : List Expr → List Diagnostic
  | [] => []
  | e :: es => bindProblems chain e ++ bindAllProblems chain es

end

def bindOptionalProblems (chain : List Scope) : Expr → List Diagnostic
  | missing => []
  | x => bindProblems chain x

end Expr

/-- A walk in progress: the open scopes, the numbers of the next variable of each kind, and what has
been found so far. -/
structure Declaring where
  /-- The scope that names are declared in. -/
  inner : Scope
  /-- The scopes around it, the nearest first. -/
  outer : List Scope := []
  /-- The number of this run, which its symbols carry. -/
  round : Nat
  globals : Nat := 0
  functions : Nat := 0
  slots : Nat := 0
  labels : Nat := 0
  diagnostics : List Diagnostic := []

namespace Declaring

/-- The open scopes, the innermost first. -/
def chain (d : Declaring) : List Scope := d.inner :: d.outer

end Declaring

abbrev Declares := StateM Declaring

namespace Declares

def report (ds : List Diagnostic) : Declares Unit :=
  modify fun d => { d with diagnostics := d.diagnostics ++ ds }

def enter : Declares Unit := modify fun d => { d with inner := ⟨[]⟩, outer := d.chain }

def leave : Declares Scope := do
  let d ← get
  set { d with inner := d.outer.headD ⟨[]⟩, outer := d.outer.tail }
  return d.inner

/-- Declares a symbol in the innermost scope. A name that is taken there is reported at `pos`. -/
def declare (pos : Pos) (sym : Symbol) : Declares (Option Symbol) := do
  let d ← get
  let sym := { sym with round := d.round }
  match d.inner.declare? sym with
  | some inner => do
    set { d with inner }
    return some sym
  | none => do
    report [{ pos, kind := .duplicateName, message := sym.name }]
    return none

def declareLocal (pos : Pos) (name : String) (ty : Ty) : Declares (Option Symbol) := do
  let d ← get
  set { d with slots := d.slots + 1 }
  declare pos { name, kind := .local, ty, index := d.slots }

def expr (x : Expr) : Declares Expr := do
  let d ← get
  report (x.bindProblems d.chain)
  return x.bind d.chain

def optional (x : Expr) : Declares Expr := do
  let d ← get
  report (x.bindOptionalProblems d.chain)
  return x.bind d.chain

def exprs (es : List Expr) : Declares (List Expr) := do
  let d ← get
  report (Expr.bindAllProblems d.chain es)
  return Expr.bindAll d.chain es

/-- Declares the body of a control statement, in a scope of its own unless it is a block, which
opens one itself, or a bare label, which jumps around the statement can reach. -/
def body (s : Stmt) (declared : Declares Stmt) : Declares (Option Scope × Stmt) :=
  match s with
  | .missing => do
    report [malformed {} "missing statement body"]
    return (none, .missing)
  | .block .. | .label .. => do return (none, ← declared)
  | _ => do
    enter
    let s ← declared
    return (some (← leave), s)

mutual

def stmt : Stmt → Declares Stmt
  | .missing => do
    report [malformed {} "nil statement"]
    return .missing
  | .block p _ ss => do
    enter
    let ss ← stmts ss
    return .block p (some (← leave)) ss
  | .expr p x => do return .expr p (← expr x)
  | .decl p name ty init _ => do
    let init ← optional init
    return .decl p name ty init (← declareLocal p name ty)
  | .ifThen p c _ t _ e => do
    let c ← expr c
    let (ts, t) ← body t (stmt t)
    if e.isMissing then return .ifThen p c ts t none e
    let (es, e) ← body e (stmt e)
    return .ifThen p c ts t es e
  | .while p c _ b => do
    let c ← expr c
    let (bs, b) ← body b (stmt b)
    return .while p c bs b
  | .doWhile p _ b c => do
    let (bs, b) ← body b (stmt b)
    return .doWhile p bs b (← expr c)
  | .for p init c step _ b => do
    let init ← exprs init
    let c ← optional c
    let step ← exprs step
    let (bs, b) ← body b (stmt b)
    return .for p init c step bs b
  | .jump p l entry => return .jump p l entry
  | .label p name _ => do
    let d ← get
    set { d with labels := d.labels + 1 }
    return .label p name (← declare p { name, kind := .label, ty := .void, index := d.labels })
  | .ret p v => do return .ret p (← optional v)
  | .goto p s entry => return .goto p s entry
  | .empty p => return .empty p

def stmts : List Stmt → Declares (List Stmt)
  | [] => return []
  | s :: ss => do
    let s ← stmt s
    return s :: (← stmts ss)

end

def param (p : Param) : Declares Param := do
  return { p with entry := ← declareLocal p.pos p.name p.ty }

/-- Declares the parameters and the statements of a body in one scope. -/
def frame (ps : List Param) (b : Block) : Declares (List Param × Block) := do
  enter
  modify fun d => { d with slots := 0 }
  let ps ← ps.mapM param
  let ss ← stmts b.stmts
  return (ps, { b with scope := some (← leave), stmts := ss })

def globalVar (v : GlobalVar) : Declares GlobalVar := do
  let init ← optional v.init
  let d ← get
  set { d with globals := d.globals + 1 }
  let entry ← declare v.pos { name := v.name, kind := .global, ty := v.ty, index := d.globals }
  return { v with init, entry }

/-- Declares a function, so that its body may mention it, and then the body. -/
def function (f : Function) : Declares Function := do
  let d ← get
  set { d with functions := d.functions + 1 }
  let entry ← declare f.pos
    { name := f.name, kind := .function, ty := f.result, params := some (paramTypes f.params)
      index := d.functions }
  match f.body with
  | none => do
    report [malformed f.pos s!"function {f.name} has no body"]
    return { f with entry }
  | some b => do
    let (params, b) ← frame f.params b
    return { f with params, body := some b, entry }

def global (script : Pos) : Global → Declares Global
  | .missing => do
    report [malformed script "unexpected global <nil>"]
    return .missing
  | .var v => do return .var (← globalVar v)
  | .function f => do return .function (← function f)

def knownHandler (kind : EventKind) (h : Handler) : Declares Handler := do
  let entry ← declare h.pos
    { name := h.name, kind := .event, ty := .void, params := some (paramTypes h.params)
      index := kind.code.toNat }
  match h.body with
  | none => do
    report [malformed h.pos s!"event {h.name} has no body"]
    return { h with kind, entry }
  | some b => do
    let (params, b) ← frame h.params b
    return { h with kind, entry, params, body := some b }

/-- Declares a handler. One for an unknown event is left alone. -/
def handler (h : Handler) : Declares Handler :=
  match EventKind.ofName? h.name with
  | none => do
    report [{ pos := h.pos, kind := .unknownEvent, message := h.name }]
    return h
  | some kind => do
    if paramTypes h.params ≠ kind.params then
      report [{ pos := h.pos, kind := .eventSignature
                message := s!"{h.name} expects ({Ty.letters kind.params})" }]
    knownHandler kind h

def state (index : Nat) (s : State) : Declares State := do
  let entry ← declare s.pos { name := s.name, kind := .state, ty := .void, index }
  enter
  let events ← s.events.mapM fun
    | none => do
      report [malformed s.pos s!"nil event in state {s.name}"]
      return none
    | some h => do return some (← handler h)
  return { s with entry, events, scope := some (← leave) }

/-- Declares states, the first of which has the given number. -/
def states (script : Pos) (index : Nat) : List (Option State) → Declares (List (Option State))
  | [] => return []
  | none :: rest => do
    report [malformed script "nil state"]
    return none :: (← states script (index + 1) rest)
  | some s :: rest => do
    let s ← state index s
    return some s :: (← states script (index + 1) rest)

def startsDefault : List (Option State) → Bool
  | some s :: _ => s.name == "default"
  | _ => false

/-- Complains about a script that does not start with the default state. -/
def requireDefault (s : Script) : Declares Unit :=
  report (if startsDefault s.states then [] else [malformed s.pos "first state must be default"])

def script (s : Script) : Declares Script := do
  let globals ← s.globals.mapM (global s.pos)
  requireDefault s
  let states ← states s.pos 0 s.states
  return { s with globals, states, scope := some (← get).inner }

end Declares

def LibraryFunction.symbol (f : LibraryFunction) : Symbol :=
  { name := f.name, kind := .library, ty := f.result, params := some f.params
    index := f.index.toNat }

/-- Declares the names of a script in which library functions are visible, as the run with the given
number. Returns the script with its notes and what was found. -/
def Script.declare (visible : List LibraryFunction) (round : Nat) (s : Script) :
    Script × List Diagnostic :=
  let (s, d) := (Declares.script s).run { inner := ⟨visible.map (·.symbol)⟩, round }
  (s, d.diagnostics)

end Lsl
