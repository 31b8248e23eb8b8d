import Lsl.Analysis.Constant
import Lsl.Analysis.Layout

/-! Code from an analyzed script. Expressions become code that pushes their value, statements code
that leaves the stack as it was, and implicit conversions become casts right after the value that is
converted. -/
namespace Lsl

/-- What the code of a body depends on besides its statements. -/
structure Surroundings where
  /-- The declaration runs whose symbols have places. -/
  placed : List Nat
  /-- The places of the globals. -/
  globals : List Nat
  constants : Constants
  /-- The variables of the frame. -/
  frame : List Ty := []
  result : Ty := .void
  /-- The variables that a return removes. -/
  unwind : List Ty := []

namespace Surroundings

/-- The place of a variable. Before it has one it is zero. -/
def offset (e : Surroundings) (s : Symbol) : Int32 :=
  if !e.placed.contains s.round then 0
  else if s.kind = .global then Int32.ofNat (e.globals.getD s.index 0)
  else Int32.ofNat (slotOffset e.frame s.index)

/-- The number of a function or state. Those of the library are fixed; the others are zero before
the script's symbols have places. -/
def index (e : Surroundings) (s : Symbol) : Int :=
  if s.kind = .library || e.placed.contains s.round then s.index else 0

def load (e : Surroundings) (v : Ident) : Except Fault (List Instr) := do
  let s ← Fault.unbound.need v.entry
  if s.kind = .global then return [.pushGlobal v.ty (e.offset s) v.member]
  return [.pushLocal v.ty (e.offset s) v.member]

/-- Stores the top of the stack in a variable or a component of it. -/
def store (e : Surroundings) (v : Ident) (keep : Bool) : Except Fault (List Instr) := do
  let s ← Fault.unbound.need v.entry
  return [.store (s.kind == .global) v.ty (e.offset s) v.member keep]

/-- Removes the frame and returns. -/
def exit (e : Surroundings) : List Instr := [.unwind e.unwind, .ret]

end Surroundings

def coerce (source target : Ty) : List Instr :=
  if source = target ∨ target = .void then []
  else if target = .list then [.toList 1]
  else [.cast source target]

namespace Expr

def typeOf : Expr → Except Fault Ty
  | missing => .error .missing
  | x => .ok x.ty

/-- Assigns to a variable a value that `value` pushes with type `t`. An operator reads the variable
before. -/
def assignCode (e : Surroundings) (op : Operator) (target : Option Ident) (t : Ty)
    (value : List Instr) (leftAs rightAs : Ty) (keep : Bool) : Except Fault (List Instr) := do
  let v ← Fault.missing.need target
  let store ← e.store v keep
  if op = .none then return value ++ coerce t v.ty ++ store
  let res := (op.binaryResult? v.ty t).getD .void
  return (← e.load v) ++ coerce v.ty leftAs ++ value ++ coerce t rightAs ++
    [.binary op leftAs rightAs] ++ coerce res v.ty ++ store

def one (t : Ty) : Value := if t = .float then .float .one else .integer 1

/-- Adds one to a variable or takes one away. If the value is kept, it is the new one when the mark
stands before the variable, else the old one. -/
def incDecCode (e : Surroundings) (decrement before : Bool) (target : Option Ident) (keep : Bool) :
    Except Fault (List Instr) := do
  let v ← Fault.missing.need target
  let load ← e.load v
  let op : Operator := if decrement then .sub else .add
  return (if keep && !before then load else []) ++ load ++
    [.pushConst (one v.ty), .binary op v.ty v.ty] ++ (← e.store v (keep && before))

def callInstr (e : Surroundings) (s : Symbol) : Instr :=
  let params := s.params.getD []
  .call { library := s.kind == .library, index := e.index s, name := s.name, result := s.ty, params
          argBytes := Ty.frameSize params }

mutual

/-- The code that pushes the value of an expression. Literals whose parts are constant become one
constant. -/
def code (e : Surroundings) : Expr → Except Fault (List Instr)
  | missing => .ok []
  | int _ n _ => .ok [.pushConst (.integer n)]
  | float _ x _ => .ok [.pushConst (.float x)]
  | string _ s _ => .ok [.pushConst (.string s)]
  | vector p x y z t =>
    match (vector p x y z t).fold e.constants with
    | some v => .ok [.pushConst v]
    | none => do
      let cx ← code e x
      let cy ← code e y
      let cz ← code e z
      return cx ++ coerce (← typeOf x) .float ++ (cy ++ coerce (← typeOf y) .float) ++
        (cz ++ coerce (← typeOf z) .float) ++ [.build .vector]
  | rotation p x y z s t =>
    match (rotation p x y z s t).fold e.constants with
    | some v => .ok [.pushConst v]
    | none => do
      let cx ← code e x
      let cy ← code e y
      let cz ← code e z
      let cs ← code e s
      return cx ++ coerce (← typeOf x) .float ++ (cy ++ coerce (← typeOf y) .float) ++
        (cz ++ coerce (← typeOf z) .float) ++ (cs ++ coerce (← typeOf s) .float) ++
        [.build .rotation]
  | list p es t =>
    match (list p es t).fold e.constants with
    | some v => .ok [.pushConst v]
    | none => do return (← codeAll e es) ++ [.toList es.length]
  | ident v => e.load v
  | unary _ op x _ => do
    let cx ← code e x
    return cx ++ [.unary op (← typeOf x)]
  | binary _ op l r la ra _ => do
    let cl ← code e l
    let cr ← code e r
    return cl ++ coerce (← typeOf l) la ++ (cr ++ coerce (← typeOf r) ra) ++ [.binary op la ra]
  | assign _ op v x la ra _ => do
    let cx ← code e x
    assignCode e op v (← typeOf x) cx la ra true
  | incDec _ d b v _ => incDecCode e d b v true
  | cast _ target x _ => do
    let cx ← code e x
    let t ← typeOf x
    return cx ++ if t = target then [] else [.cast t target]
  | call _ _ args c _ => do
    let s ← Fault.unbound.need c
    return .callBegin s.ty :: (← codeArgs e (s.params.getD []) args) ++ [callInstr e s]
  | paren _ x _ => code e x
  | print _ x _ => do
    let cx ← code e x
    return cx ++ [.print (← typeOf x)]

def codeAll (e : Surroundings) : List Expr → Except Fault (List Instr)
  | [] => .ok []
  | x :: xs => do
    let cx ← code e x
    return cx ++ (← codeAll e xs)

def codeArgs (e : Surroundings) (params : List Ty) : List Expr → Except Fault (List Instr)
  | [] => .ok []
  | x :: xs =>
    match params with
    | [] => .error .arity
    | p :: ps => do
      let cx ← code e x
      return cx ++ coerce (← typeOf x) p ++ (← codeArgs e ps xs)

end

/-- The code that evaluates an expression and leaves nothing on the stack. -/
def discard (e : Surroundings) : Expr → Except Fault (List Instr)
  | assign _ op v x la ra _ => do assignCode e op v (← typeOf x) (← code e x) la ra false
  | incDec _ d b v _ => incDecCode e d b v false
  | paren _ x _ => discard e x
  | x => do
    let t ← typeOf x
    return (← code e x) ++ if t = .void then [] else [.pop t]

/-- The code that evaluates expressions in order and leaves nothing on the stack. -/
def discardAll (e : Surroundings) : List Expr → Except Fault (List Instr)
  | [] => .ok []
  | x :: xs => do
    let cx ← discard e x
    return cx ++ (← discardAll e xs)

end Expr

/-- The labels given out: the last number, and the numbers of the label statements that have one. -/
structure Labels where
  last : Label := 0
  known : List ((Nat × Nat) × Label) := []

abbrev Emits := StateT Labels (Except Fault)

namespace Emits

def fresh : Emits Label := do
  let s ← get
  set { s with last := s.last + 1 }
  return s.last + 1

/-- The label of a label statement, given out when it is first asked for. -/
def labelOf (sym : Symbol) : Emits Label := do
  match (← get).known.lookup (sym.round, sym.index) with
  | some l => return l
  | none => do
    let l ← fresh
    modify fun s => { s with known := ((sym.round, sym.index), l) :: s.known }
    return l

end Emits

namespace Stmt

def initCode (e : Surroundings) (ty : Ty) : Expr → Except Fault (List Instr)
  | .missing => .ok [.pushConst (.zero ty)]
  | x => do return (← x.code e) ++ coerce x.ty ty

/-- Moves a returned value to where the caller expects it. Bodies without a result do not evaluate
it. -/
def resultCode (e : Surroundings) : Expr → Except Fault (List Instr)
  | .missing => .ok []
  | x =>
    if e.result = .void then .ok []
    else do return (← x.code e) ++ coerce x.ty e.result ++ [.returnValue e.result]

def branchNot (e : Surroundings) (c : Expr) (l : Label) : Except Fault (List Instr) := do
  return (← c.code e) ++ [.jumpNot (← c.typeOf) l]

/-- Evaluates the condition of a `for`, which always holds if it is missing. -/
def loopTest (e : Surroundings) (c : Expr) (l : Label) : Except Fault (List Instr) :=
  if c.isMissing then .ok [] else branchNot e c l

mutual

def code (e : Surroundings) : Stmt → Emits (List Instr)
  | missing => return []
  | block _ _ ss => codeAll e ss
  | expr _ x => x.discard e
  | decl _ _ ty init entry => do
    let s ← Fault.unbound.need entry
    return (← initCode e ty init) ++ [.store false ty (e.offset s) "" false]
  | ifThen _ c _ t _ els => do
    let skip ← Emits.fresh
    let test ← branchNot e c skip
    let thenCode ← code e t
    if els.isMissing then return test ++ thenCode ++ [.label skip]
    let done ← Emits.fresh
    return test ++ thenCode ++ [.jump done, .label skip] ++ (← code e els) ++ [.label done]
  | .while _ c _ b => do
    let top ← Emits.fresh
    let done ← Emits.fresh
    let test ← branchNot e c done
    return .label top :: test ++ (← code e b) ++ [.jump top, .label done]
  | doWhile _ _ b c => do
    let top ← Emits.fresh
    let body ← code e b
    return .label top :: body ++ (← c.code e) ++ [.jumpIf (← c.typeOf) top]
  | .for _ init c step _ b => do
    let first ← Expr.discardAll e init
    let top ← Emits.fresh
    let done ← Emits.fresh
    let test ← loopTest e c done
    let body ← code e b
    return first ++ [.label top] ++ test ++ body ++ (← Expr.discardAll e step) ++
      [.jump top, .label done]
  | jump _ _ entry => do
    let s ← Fault.unbound.need entry
    return [.jump (← Emits.labelOf s)]
  | label _ _ entry => do
    let s ← Fault.unbound.need entry
    return [.label (← Emits.labelOf s)]
  | ret _ v => do return (← resultCode e v) ++ e.exit
  | goto _ name entry => do
    let s ← Fault.unbound.need entry
    return [.unwind e.unwind, .state (e.index s) name, .ret]
  | empty _ => return []

def codeAll (e : Surroundings) : List Stmt → Emits (List Instr)
  | [] => return []
  | s :: ss => do
    let c ← code e s
    return c ++ (← codeAll e ss)

end

end Stmt

def endsInReturn (code : List Instr) : Bool :=
  match code.getLast? with
  | some .ret => true
  | _ => false

/-- What the code inside a body depends on. The locals are removed by a return only when the script's
symbols have places. -/
def Surroundings.enter (e : Surroundings) (result : Ty) (entry : Symbol) (params : List Param)
    (b : Block) : Surroundings :=
  let pops := if e.placed.contains entry.round then (Stmt.localsAll b.stmts).map (·.ty) else []
  { e with frame := frameTypes params b, result
           unwind := pops.reverse ++ (paramTypes params).reverse }

def emitBody (e : Surroundings) (result : Ty) (entry : Option Symbol) (params : List Param)
    (body : Option Block) : Emits Body := do
  let b ← Fault.missing.need body
  let s ← Fault.unbound.need entry
  let locals := Stmt.localsAll b.stmts
  let e := e.enter result s params b
  let code := .enterFrame (Ty.frameSize (locals.map (·.ty))) :: (← Stmt.codeAll e b.stmts)
  return { result, params := paramSlots params, locals
           code := if endsInReturn code then code else code ++ e.exit }

namespace Script

def emitGlobals (e : Surroundings) : List GlobalVar → Except Fault (List GlobalData)
  | [] => .ok []
  | v :: vs => do
    let s ← Fault.unbound.need v.entry
    let place := if e.placed.contains s.round then e.globals.getD s.index 0 else 0
    let value := (e.constants.value? s).getD (.zero v.ty)
    return ⟨v.name, v.ty, place, value⟩ :: (← emitGlobals e vs)

def emitFunction (e : Surroundings) (f : Function) : Emits FunctionCode := do
  let s ← Fault.unbound.need f.entry
  return ⟨f.name, e.index s, ← emitBody e f.result f.entry f.params f.body⟩

def emitHandler (e : Surroundings) (h : Option Handler) : Emits HandlerCode := do
  let h ← Fault.missing.need h
  return ⟨h.kind, ← emitBody e .void h.entry h.params h.body⟩

/-- The code of a state, with its handlers in the order of the events. -/
def emitState (e : Surroundings) (s : Option State) : Emits StateCode := do
  let s ← Fault.missing.need s
  let sym ← Fault.unbound.need s.entry
  let events ← s.events.mapM (emitHandler e)
  return { name := s.name, index := e.index sym
           events := events.mergeSort fun a b => a.kind.code ≤ b.kind.code }

def surroundings (placed : List Nat) (constants : Constants) (s : Script) : Surroundings :=
  { placed, constants, globals := globalOffsets 0 s.globalVars }

def emit (placed : List Nat) (constants : Constants) (s : Script) : Emits Program := do
  let e := s.surroundings placed constants
  let globals ← emitGlobals e s.globalVars
  let functions ← s.functions.mapM (emitFunction e)
  let states ← s.states.mapM (emitState e)
  return { globals, functions, states }

end Script
end Lsl
