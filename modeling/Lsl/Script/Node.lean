import Lsl.Script.Basic

/-! The stored form of a script: nodes of one shape, each with a kind, the fields that its kind
uses, children in fixed places, and lists of children. A missing child is a null node. -/
namespace Lsl

/-- The fields of a node besides its children. Fields that a kind does not use are zero. -/
structure NodeFields where
  kind : String := ""
  line : Int := 0
  column : Int := 0
  name : String := ""
  ty : Ty := .void
  op : Operator := .none
  int : Int32 := 0
  float : Single := .zero
  text : String := ""
  member : String := ""
  flags : UInt8 := 0
deriving DecidableEq

inductive Node where
  | null
  | node (fields : NodeFields) (kids : List Node) (lists : List (List Node))
deriving Inhabited

namespace Node

def header (kind : String) (p : Pos) : NodeFields :=
  { kind, line := p.line, column := p.column }

def leaf (f : NodeFields) : Node := node f [] []

def ofIdent (v : Ident) : Node :=
  leaf { header "ident" v.pos with name := v.name, member := v.member }

def incDecFlags (decrement before : Bool) : UInt8 :=
  (if decrement then 1 else 0) + (if before then 2 else 0)

mutual

def ofExpr : Expr → Node
  | .missing => null
  | .int p n _ => leaf { header "int" p with int := n }
  | .float p x _ => leaf { header "float" p with float := x }
  | .string p s _ => leaf { header "string" p with text := s }
  | .vector p x y z _ => node (header "vector" p) [ofExpr x, ofExpr y, ofExpr z] []
  | .rotation p x y z s _ =>
    node (header "rotation" p) [ofExpr x, ofExpr y, ofExpr z, ofExpr s] []
  | .list p es _ => node (header "list" p) (ofExprs es) []
  | .ident v => ofIdent v
  | .unary p op x _ => node { header "unary" p with op } [ofExpr x] []
  | .binary p op l r _ _ _ => node { header "binary" p with op } [ofExpr l, ofExpr r] []
  | .assign p op t x _ _ _ =>
    node { header "assign" p with op } [(t.map ofIdent).getD null, ofExpr x] []
  | .incDec p d before t _ =>
    node { header "incdec" p with flags := incDecFlags d before } [(t.map ofIdent).getD null] []
  | .cast p target x _ => node { header "cast" p with ty := target } [ofExpr x] []
  | .call p name args _ _ => node { header "call" p with name } (ofExprs args) []
  | .paren p x _ => node (header "paren" p) [ofExpr x] []
  | .print p x _ => node (header "print" p) [ofExpr x] []

def ofExprs : List Expr → List Node
  | [] => []
  | e :: es => ofExpr e :: ofExprs es

end

mutual

def ofStmt : Stmt → Node
  | .missing => null
  | .block p _ ss => node (header "block" p) (ofStmts ss) []
  | .expr p x => node (header "expr" p) [ofExpr x] []
  | .decl p name ty init _ => node { header "decl" p with name, ty } [ofExpr init] []
  | .ifThen p c _ t _ e => node (header "if" p) [ofExpr c, ofStmt t, ofStmt e] []
  | .while p c _ b => node (header "while" p) [ofExpr c, ofStmt b] []
  | .doWhile p _ b c => node (header "do" p) [ofStmt b, ofExpr c] []
  | .for p init c step _ b =>
    node (header "for" p) [ofExpr c, ofStmt b] [ofExprs init, ofExprs step]
  | .jump p l _ => leaf { header "jump" p with name := l }
  | .label p name _ => leaf { header "label" p with name }
  | .ret p v => node (header "return" p) [ofExpr v] []
  | .goto p s _ => leaf { header "goto" p with name := s }
  | .empty p => leaf (header "empty" p)

def ofStmts : List Stmt → List Node
  | [] => []
  | s :: ss => ofStmt s :: ofStmts ss

end

def ofBlock (b : Option Block) : Node :=
  match b with
  | none => null
  | some b => node (header "block" b.pos) (ofStmts b.stmts) []

def ofParam (p : Param) : Node := leaf { header "param" p.pos with name := p.name, ty := p.ty }

def ofGlobal : Global → Node
  | .missing => null
  | .var v => node { header "global" v.pos with name := v.name, ty := v.ty } [ofExpr v.init] []
  | .function f =>
    node { header "function" f.pos with name := f.name, ty := f.result } [ofBlock f.body]
      [f.params.map ofParam]

def ofHandler : Option Handler → Node
  | none => null
  | some h =>
    node { header "event" h.pos with name := h.name } [ofBlock h.body] [h.params.map ofParam]

def ofState : Option State → Node
  | none => null
  | some s => node { header "state" s.pos with name := s.name } (s.events.map ofHandler) []

def ofScript (s : Script) : Node :=
  node (header "script" s.pos) [] [s.globals.map ofGlobal, s.states.map ofState]

end Node

inductive NodeError where
  | notScript (kind : String)
  | nullGlobal
  | globalKind (kind : String)
  | badState
  | badEvent (state : String)
  | notBlock (found : Stmt)
  | missingStmt
  | stmtKind (kind : String)
  | notIdent
  | missingExpr
  | components (kind : String) (count : Nat)
  | exprKind (kind : String)

namespace NodeError

/-- The word for a statement that stands in the place of a block. -/
def stmtWord : Stmt → String
  | .missing => "<nil>"
  | .block .. => "*compiler.Block"
  | .expr .. => "*compiler.ExprStmt"
  | .decl .. => "*compiler.DeclStmt"
  | .ifThen .. => "*compiler.IfStmt"
  | .while .. => "*compiler.WhileStmt"
  | .doWhile .. => "*compiler.DoWhileStmt"
  | .for .. => "*compiler.ForStmt"
  | .jump .. => "*compiler.JumpStmt"
  | .label .. => "*compiler.LabelStmt"
  | .ret .. => "*compiler.ReturnStmt"
  | .goto .. => "*compiler.StateStmt"
  | .empty .. => "*compiler.EmptyStmt"

def message (e : NodeError) : String :=
  "compiler: unmarshal script: " ++ match e with
    | notScript k => s!"expected script, got {Text.quote k}"
    | nullGlobal => "null global"
    | globalKind k => s!"unexpected global kind {Text.quote k}"
    | badState => "malformed state"
    | badEvent s => s!"malformed event in state {s}"
    | notBlock s => s!"expected block, got {stmtWord s}"
    | missingStmt => "missing statement"
    | stmtKind k => s!"unknown statement kind {Text.quote k}"
    | notIdent => "expected identifier"
    | missingExpr => "missing expression"
    | components k n => s!"{k} literal with {n} components"
    | exprKind k => s!"unknown expression kind {Text.quote k}"

end NodeError

namespace Node

abbrev Reading := Except NodeError

def posOf (f : NodeFields) : Pos := ⟨f.line, f.column⟩

def toIdent : Node → Reading Ident
  | null => .error .notIdent
  | node f _ _ =>
    if f.kind = "ident" then .ok { pos := posOf f, name := f.name, member := f.member }
    else .error .notIdent

def targetOf : List Node → Reading Ident
  | [] => .error .notIdent
  | n :: _ => n.toIdent

/-- A literal of three or four components. -/
def ofComponents (f : NodeFields) (xs : List Expr) : Reading Expr :=
  match f.kind, xs with
  | "vector", [x, y, z] => .ok (.vector (posOf f) x y z .void)
  | "rotation", [x, y, z, s] => .ok (.rotation (posOf f) x y z s .void)
  | k, xs => .error (.components k xs.length)

mutual

def toExpr : Node → Reading Expr
  | null => .error .missingExpr
  | node f kids _ =>
    let p := posOf f
    match f.kind with
    | "int" => .ok (.int p f.int .void)
    | "float" => .ok (.float p f.float .void)
    | "string" => .ok (.string p f.text .void)
    | "ident" => .ok (.ident { pos := p, name := f.name, member := f.member })
    | "call" => do return .call p f.name (← toExprs kids) none .void
    | "list" => do return .list p (← toExprs kids) .void
    | "vector" => do ofComponents f (← toExprs kids)
    | "rotation" => do ofComponents f (← toExprs kids)
    | "assign" => do
      let target ← targetOf kids
      return .assign p f.op (some target) (← secondExpr kids) .void .void .void
    | "incdec" => do
      let target ← targetOf kids
      return .incDec p (f.flags % 2 == 1) (f.flags / 2 % 2 == 1) (some target) .void
    | kind => do
      let a ← firstExpr kids
      match kind with
      | "unary" => return .unary p f.op a .void
      | "cast" => return .cast p f.ty a .void
      | "paren" => return .paren p a .void
      | "print" => return .print p a .void
      | "binary" => return .binary p f.op a (← secondExpr kids) .void .void .void
      | _ => throw (.exprKind kind)

def toExprs : List Node → Reading (List Expr)
  | [] => .ok []
  | n :: ns => do
    let e ← toExpr n
    return e :: (← toExprs ns)

def firstExpr : List Node → Reading Expr
  | [] => .error .missingExpr
  | n :: _ => toExpr n

def secondExpr : List Node → Reading Expr
  | [] => .error .missingExpr
  | _ :: ns => firstExpr ns

end

/-- The child at a place; there are null nodes after the last one. -/
def kid (kids : List Node) (i : Nat) : Node := kids.getD i null

/-- The list at a place; there are empty lists after the last one. -/
def listAt (lists : List (List Node)) (i : Nat) : List Node := lists.getD i []

def toOptionalExpr : Node → Reading Expr
  | null => .ok .missing
  | n => toExpr n

mutual

def toStmt : Node → Reading Stmt
  | null => .error .missingStmt
  | node f kids lists =>
    let p := posOf f
    match f.kind with
    | "block" => do return .block p none (← toStmts kids)
    | "expr" => do return .expr p (← toExpr (kid kids 0))
    | "decl" => do return .decl p f.name f.ty (← toOptionalExpr (kid kids 0)) none
    | "if" => do
      let c ← toExpr (kid kids 0)
      let t ← secondStmt kids
      return .ifThen p c none t none (← thirdStmt kids)
    | "while" => do
      let c ← toExpr (kid kids 0)
      return .while p c none (← secondStmt kids)
    | "do" => do
      let b ← firstStmt kids
      return .doWhile p none b (← toExpr (kid kids 1))
    | "for" => do
      let c ← toOptionalExpr (kid kids 0)
      let b ← secondStmt kids
      let init ← toExprs (listAt lists 0)
      return .for p init c (← toExprs (listAt lists 1)) none b
    | "jump" => .ok (.jump p f.name none)
    | "label" => .ok (.label p f.name none)
    | "return" => do return .ret p (← toOptionalExpr (kid kids 0))
    | "goto" => .ok (.goto p f.name none)
    | "empty" => .ok (.empty p)
    | kind => .error (.stmtKind kind)

def toStmts : List Node → Reading (List Stmt)
  | [] => .ok []
  | n :: ns => do
    let s ← toStmt n
    return s :: (← toStmts ns)

def firstStmt : List Node → Reading Stmt
  | [] => .error .missingStmt
  | n :: _ => toStmt n

def secondStmt : List Node → Reading Stmt
  | [] => .error .missingStmt
  | _ :: ns => firstStmt ns

/-- The third child as a statement, if there is one. -/
def thirdStmt : List Node → Reading Stmt
  | _ :: _ :: null :: _ => .ok .missing
  | _ :: _ :: n :: _ => toStmt n
  | _ => .ok .missing

end

def toBlock (n : Node) : Reading Block := do
  match ← toStmt n with
  | .block pos scope stmts => return { pos, scope, stmts }
  | s => throw (.notBlock s)

/-- The parameters that nodes store; null nodes are passed over. -/
def toParams (ns : List Node) : List Param := ns.filterMap fun
  | null => none
  | node f _ _ => some { pos := posOf f, name := f.name, ty := f.ty }

def toGlobal : Node → Reading Global
  | null => .error .nullGlobal
  | node f kids lists =>
    match f.kind with
    | "global" => do
      let init ← toOptionalExpr (kid kids 0)
      return .var { pos := posOf f, name := f.name, ty := f.ty, init }
    | "function" => do
      let body ← toBlock (kid kids 0)
      return .function { pos := posOf f, name := f.name, result := f.ty,
                         params := toParams (listAt lists 0), body := some body }
    | kind => .error (.globalKind kind)

def toHandler (state : String) : Node → Reading Handler
  | null => .error (.badEvent state)
  | node f kids lists => do
    if f.kind ≠ "event" then throw (.badEvent state)
    let body ← toBlock (kid kids 0)
    return { pos := posOf f, name := f.name, params := toParams (listAt lists 0), body := some body }

def toState : Node → Reading State
  | null => .error .badState
  | node f kids _ => do
    if f.kind ≠ "state" then throw .badState
    let events ← kids.mapM (toHandler f.name)
    return { pos := posOf f, name := f.name, events := events.map some }

def toScript : Node → Reading Script
  | null => .error (.notScript "")
  | node f _ lists => do
    if f.kind ≠ "script" then throw (.notScript f.kind)
    let globals ← (listAt lists 0).mapM toGlobal
    let states ← (listAt lists 1).mapM toState
    return { pos := posOf f, globals, states := states.map some }

end Node
end Lsl
