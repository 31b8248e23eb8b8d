import Lsl.Analysis.Constant
import Lsl.Analysis.Resolution

/-! Types of expressions and statements. Every expression is noted with its type, operands with the
types in which they are evaluated, and every rule that is broken is reported. Statements after a
broken rule in the same sequence are left alone. -/
namespace Lsl

def mismatch (pos : Pos) (message : String) : Diagnostic :=
  { pos, kind := .typeMismatch, message }

def unlessHolds (holds : Bool) (d : Diagnostic) : List Diagnostic := if holds then [] else [d]

/-- Whether variables of a type have a component: the fourth belongs to rotations only. -/
def hasMember (t : Ty) (member : String) : Bool :=
  if member = "s" then t == .rotation
  else (t == .vector || t == .rotation) && (componentIndex? member).isSome

namespace Ident

/-- The type of a variable, or of the component that is selected. -/
def infer (v : Ident) : Except Fault (Noted Ident) := do
  let s ← Fault.unbound.need v.entry
  if v.member = "" then return ({ v with ty := s.ty }, [])
  return ({ v with ty := .float },
    unlessHolds (hasMember s.ty v.member) (mismatch v.pos s!"{s.ty.name} has no member {v.member}"))

end Ident

namespace Expr

def elementProblems (e : Expr) : List Diagnostic :=
  match e.ty with
  | .list => [{ pos := e.pos, kind := .listNesting }]
  | .void => [mismatch e.pos "void list element"]
  | _ => []

def componentProblems (e : Expr) : List Diagnostic :=
  unlessHolds (Ty.assignable .float e.ty) (mismatch e.pos s!"{e.ty.name} vector component")

def argumentsFit : List Ty → List Ty → Bool
  | [], [] => true
  | p :: ps, a :: as => Ty.coercible p a && argumentsFit ps as
  | _, _ => false

/-- Whether an assignment is legal: with an operator, its result must fit the target. -/
def assignmentFits (op : Operator) (dst src : Ty) : Bool :=
  if op = .none then Ty.assignable dst src
  else match op.binaryResult? dst src with
    | some t => Ty.assignable dst t
    | none => false

/-- The types in which the two sides of an assignment are evaluated. -/
def assignmentTypes (op : Operator) (dst src : Ty) : Ty × Ty :=
  if op = .none then (dst, dst) else op.promote dst src

def assignSymbol (op : Operator) : String := if op = .none then "=" else op.symbol ++ "="

mutual

def infer : Expr → Except Fault (Noted Expr)
  | missing => .error .missing
  | int p n _ => .ok (int p n .integer, [])
  | float p x _ => .ok (float p x .float, [])
  | string p s _ => .ok (string p s .string, [])
  | vector p x y z _ => do
    let (x, dx) ← infer x
    let (y, dy) ← infer y
    let (z, dz) ← infer z
    return (vector p x y z .vector, dx ++ componentProblems x ++ (dy ++ componentProblems y) ++
      (dz ++ componentProblems z))
  | rotation p x y z s _ => do
    let (x, dx) ← infer x
    let (y, dy) ← infer y
    let (z, dz) ← infer z
    let (s, ds) ← infer s
    return (rotation p x y z s .rotation, dx ++ componentProblems x ++
      (dy ++ componentProblems y) ++ (dz ++ componentProblems z) ++ (ds ++ componentProblems s))
  | list p es _ => do
    let (es, ds) ← inferElements es
    return (list p es .list, ds)
  | ident v => do
    let (v, ds) ← v.infer
    return (ident v, ds)
  | unary p op x _ => do
    let (x, dx) ← infer x
    let t := op.unaryResult? x.ty
    return (unary p op x (t.getD .void),
      dx ++ unlessHolds t.isSome (mismatch p (op.symbol ++ x.ty.name)))
  | binary p op l r _ _ _ => do
    let (l, dl) ← infer l
    let (r, dr) ← infer r
    let t := op.binaryResult? l.ty r.ty
    let (la, ra) := op.promote l.ty r.ty
    return (binary p op l r la ra (t.getD .void),
      dl ++ dr ++ unlessHolds t.isSome (mismatch p s!"{l.ty.name} {op.symbol} {r.ty.name}"))
  | assign p op v x _ _ _ => do
    let v ← Fault.missing.need v
    let (v, dv) ← v.infer
    let (x, dx) ← infer x
    let (la, ra) := assignmentTypes op v.ty x.ty
    return (assign p op (some v) x la ra v.ty,
      dv ++ dx ++ unlessHolds (assignmentFits op v.ty x.ty)
        (mismatch p s!"{v.ty.name} {assignSymbol op} {x.ty.name}"))
  | incDec p d b v _ => do
    let v ← Fault.missing.need v
    let (v, dv) ← v.infer
    return (incDec p d b (some v) v.ty, dv ++ unlessHolds (v.ty == .integer || v.ty == .float)
      (mismatch p s!"{incDecMark d} on {v.ty.name}"))
  | cast p target x _ => do
    let (x, dx) ← infer x
    return (cast p target x target, dx ++ unlessHolds (Ty.castable x.ty target)
      (mismatch p s!"({target.name}){x.ty.name}"))
  | call p name args c _ => do
    let (args, ds) ← inferAll args
    let s ← Fault.unbound.need c
    let params := s.params.getD []
    let types := args.map ty
    return (call p name args c s.ty, ds ++ unlessHolds (argumentsFit params types)
      { pos := p, kind := .argumentMismatch
        message := s!"{name}({Ty.names params}) called with ({Ty.names types})" })
  | paren p x _ => do
    let (x, dx) ← infer x
    return (paren p x x.ty, dx)
  | print p x _ => do
    let (x, dx) ← infer x
    return (print p x .void, dx ++ unlessHolds (x.ty != .void) (mismatch p "print of void"))

def inferAll : List Expr → Except Fault (Noted (List Expr))
  | [] => .ok ([], [])
  | e :: es => do
    let (e, ds) ← infer e
    let (es, more) ← inferAll es
    return (e :: es, ds ++ more)

def inferElements : List Expr → Except Fault (Noted (List Expr))
  | [] => .ok ([], [])
  | e :: es => do
    let (e, ds) ← infer e
    let (es, more) ← inferElements es
    return (e :: es, ds ++ elementProblems e ++ more)

end

/-- Notes the types of a condition. That it has no value is reported if nothing else was. -/
def inferCondition (failed : Bool) (e : Expr) : Except Fault (Noted Expr) := do
  let (e, ds) ← infer e
  return (e, ds ++ unlessHolds (e.ty != .void || failed || !ds.isEmpty)
    (mismatch e.pos "void condition"))

def inferOptional (e : Expr) : Except Fault (Noted Expr) :=
  match e with
  | missing => .ok (missing, [])
  | e => infer e

def inferOptionalCondition (failed : Bool) (e : Expr) : Except Fault (Noted Expr) :=
  match e with
  | missing => .ok (missing, [])
  | e => inferCondition failed e

end Expr

namespace Stmt

def declProblems (pos : Pos) (name : String) (ty : Ty) : Expr → List Diagnostic
  | .missing => []
  | e => unlessHolds (Ty.coercible ty e.ty) (mismatch pos s!"{ty.name} {name} = {e.ty.name}")

/-- Complaints about a returned value. Functions without a result are left to the analysis of
return paths. -/
def returnProblems (pos : Pos) (result : Ty) : Expr → List Diagnostic
  | .missing => []
  | e => unlessHolds (result == .void || Ty.assignable result e.ty)
      (mismatch pos s!"returning {e.ty.name} from {result.name} function")

mutual

/-- Notes the types in a statement of a body with the given result. `failed` tells whether a problem
was found before. -/
def check (result : Ty) (failed : Bool) : Stmt → Except Fault (Noted Stmt)
  | missing => .ok (missing, [])
  | block p scope ss => do
    let (ss, ds) ← checkAll result failed ss
    return (block p scope ss, ds)
  | expr p x => do
    let (x, ds) ← x.infer
    return (expr p x, ds)
  | decl p name ty init entry => do
    let (init, ds) ← init.inferOptional
    return (decl p name ty init entry, ds ++ declProblems p name ty init)
  | ifThen p c ts t es e => do
    let (c, dc) ← c.inferCondition failed
    let (t, dt) ← check result (failed || !dc.isEmpty) t
    let (e, de) ← check result (failed || !dc.isEmpty || !dt.isEmpty) e
    return (ifThen p c ts t es e, dc ++ dt ++ de)
  | .while p c bs b => do
    let (c, dc) ← c.inferCondition failed
    let (b, db) ← check result (failed || !dc.isEmpty) b
    return (.while p c bs b, dc ++ db)
  | doWhile p bs b c => do
    let (b, db) ← check result failed b
    let (c, dc) ← c.inferCondition (failed || !db.isEmpty)
    return (doWhile p bs b c, db ++ dc)
  | .for p init c step bs b => do
    let (init, di) ← Expr.inferAll init
    let (c, dc) ← c.inferOptionalCondition (failed || !di.isEmpty)
    let (step, ds) ← Expr.inferAll step
    let (b, db) ← check result (failed || !di.isEmpty || !dc.isEmpty || !ds.isEmpty) b
    return (.for p init c step bs b, di ++ dc ++ ds ++ db)
  | jump p l entry => .ok (jump p l entry, [])
  | label p name entry => .ok (label p name entry, [])
  | ret p v => do
    let (v, ds) ← v.inferOptional
    return (ret p v, ds ++ returnProblems p result v)
  | goto p s entry => .ok (goto p s entry, [])
  | empty p => .ok (empty p, [])

/-- Notes the types in statements up to the first one with a problem. -/
def checkAll (result : Ty) (failed : Bool) : List Stmt → Except Fault (Noted (List Stmt))
  | [] => .ok ([], [])
  | s :: ss =>
    if failed then .ok (s :: ss, [])
    else do
      let (s, ds) ← check result false s
      let (ss, more) ← checkAll result (!ds.isEmpty) ss
      return (s :: ss, ds ++ more)

end

end Stmt

namespace Script

def globalMismatch (v : GlobalVar) (t : Ty) : Diagnostic :=
  mismatch v.pos s!"{v.ty.name} {v.name} = {t.name}"

def recordConstant (cs : Constants) (v : GlobalVar) (c : Constant) : Except Fault Constants := do
  let s ← Fault.unbound.need v.entry
  return ((s.round, s.index), c) :: cs

/-- Checks a global variable: its initial value must be constant and convert to its type. -/
def checkGlobalVar (cs : Constants) (v : GlobalVar) :
    Except Fault (Noted (GlobalVar × Constants)) :=
  match v.init with
  | .missing => do return ((v, ← recordConstant cs v ⟨.zero v.ty, .zero⟩), [])
  | init => do
    let (init, ds) ← init.infer
    let v := { v with init }
    if !ds.isEmpty then return ((v, cs), ds)
    if !Ty.coercible v.ty init.ty then return ((v, cs), [globalMismatch v init.ty])
    match init.fold cs with
    | none => return ((v, cs), [{ pos := init.pos, kind := .nonConstantGlobal, message := v.name }])
    | some c =>
      match c.convert? v.ty with
      | none => return ((v, cs), [globalMismatch v init.ty])
      | some c => return ((v, ← recordConstant cs v ⟨c, init.fourth cs⟩), [])

def checkBody (result : Ty) (body : Option Block) : Except Fault (Noted (Option Block)) := do
  let b ← Fault.missing.need body
  let (stmts, ds) ← Stmt.checkAll result false b.stmts
  return (some { b with stmts }, ds)

def checkGlobal (cs : Constants) : Global → Except Fault (Noted (Global × Constants))
  | .missing => .ok ((.missing, cs), [])
  | .var v => do
    let ((v, cs), ds) ← checkGlobalVar cs v
    return ((.var v, cs), ds)
  | .function f => do
    let (body, ds) ← checkBody f.result f.body
    return ((.function { f with body }, cs), ds)

/-- Checks globals up to the first one with a problem. -/
def checkGlobals (cs : Constants) : List Global → Except Fault (Noted (List Global × Constants))
  | [] => .ok (([], cs), [])
  | g :: gs => do
    let ((g, cs), ds) ← checkGlobal cs g
    if !ds.isEmpty then return ((g :: gs, cs), ds)
    let ((gs, cs), more) ← checkGlobals cs gs
    return ((g :: gs, cs), more)

def checkHandler (h : Option Handler) : Except Fault (Noted (Option Handler)) := do
  let h ← Fault.missing.need h
  let (body, ds) ← checkBody .void h.body
  return (some { h with body }, ds)

/-- Checks parts up to the first one with a problem. -/
def checkUntil (step : α → Except Fault (Noted α)) : List α → Except Fault (Noted (List α))
  | [] => .ok ([], [])
  | a :: as => do
    let (a, ds) ← step a
    if !ds.isEmpty then return (a :: as, ds)
    let (as, more) ← checkUntil step as
    return (a :: as, more)

def checkState (s : Option State) : Except Fault (Noted (Option State)) := do
  let s ← Fault.missing.need s
  let (events, ds) ← checkUntil checkHandler s.events
  return (some { s with events }, ds)

/-- Notes the types in a script whose names are resolved, and the initial values of its globals. -/
def check (cs : Constants) (s : Script) : Except Fault (Noted (Script × Constants)) := do
  let ((globals, cs), ds) ← checkGlobals cs s.globals
  if !ds.isEmpty then return (({ s with globals }, cs), ds)
  let (states, more) ← checkUntil checkState s.states
  return (({ s with globals, states }, cs), more)

end Script
end Lsl
