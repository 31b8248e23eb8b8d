import Lsl.Proofs.CompleteTrees

/-! The rules of scopes. A tree is well scoped when no two names declared in one scope are equal and each
variable that is used has been declared before, in a scope around its use. The variables in sight are
carried along, the nearest first. The same rules, read with symbols for names, say which symbol each
variable is bound to and what each scope holds. -/
namespace Lsl

namespace Expr

/-- Each variable of an expression is among those in sight. -/
def Sees (env : List String) (x : Expr) : Prop := ∀ v, ident v ∈ x.parts → v.name ∈ env

/-- Each variable of an expression is bound to the nearest one in sight with its name. -/
def Bound (env : List Symbol) (x : Expr) : Prop :=
  ∀ v, ident v ∈ x.parts → ∃ sym, v.entry = some sym ∧ env.find? (·.name == v.name) = some sym

end Expr

def Symbol.Apart (syms : List Symbol) : Prop := (syms.map (·.name)).Nodup

/-- A declaration is noted with a symbol of its own name, kind and type. -/
def Denotes (round : Nat) (name : String) (kind : SymbolKind) (ty : Ty) (entry : Option Symbol) : Prop :=
  ∃ index, entry = some { name, kind, ty, index, round }

namespace Stmt

def labelName? : Stmt → Option String
  | label _ name _ => some name
  | _ => none

/-- The names that a statement declares in the scope it stands in. A label that is the whole body of a
control statement is declared in the scope around the statement. -/
def declares : Stmt → List String
  | decl _ name _ _ _ | label _ name _ => [name]
  | ifThen _ _ _ t _ e => t.labelName?.toList ++ e.labelName?.toList
  | .while _ _ _ b | doWhile _ _ b _ | .for _ _ _ _ _ b => b.labelName?.toList
  | _ => []

def declaresAll (ss : List Stmt) : List String := ss.flatMap declares

def varNames : Stmt → List String
  | decl _ name _ _ _ => [name]
  | _ => []

mutual

/-- A statement is well scoped where the given variables are in sight. The body of a control statement is
in a scope of its own. -/
def WellScoped (env : List String) : Stmt → Prop
  | missing | jump .. | label .. | goto .. | empty _ => True
  | block _ _ ss => (declaresAll ss).Nodup ∧ WellScopedAll env ss
  | expr _ x => x.Sees env
  | decl _ _ _ init _ => init.Sees env
  | ifThen _ c _ t _ e => c.Sees env ∧ (t.declares.Nodup ∧ WellScoped env t) ∧
      (e.declares.Nodup ∧ WellScoped env e)
  | .while _ c _ b | doWhile _ _ b c => c.Sees env ∧ (b.declares.Nodup ∧ WellScoped env b)
  | .for _ init c step _ b => ((∀ x ∈ init, x.Sees env) ∧ c.Sees env ∧ ∀ x ∈ step, x.Sees env) ∧
      (b.declares.Nodup ∧ WellScoped env b)
  | ret _ v => v.Sees env

/-- A variable is in sight of the statements after its own. -/
def WellScopedAll (env : List String) : List Stmt → Prop
  | [] => True
  | s :: ss => WellScoped env s ∧ WellScopedAll (s.varNames ++ env) ss

end

def varSymbol? : Stmt → Option Symbol
  | decl _ _ _ _ entry => entry
  | _ => none

/-- The symbols that a statement adds to the scope it stands in. -/
def standing (s : Stmt) : List Symbol := s.varSymbol?.toList ++ s.own

def standingAll (ss : List Stmt) : List Symbol := ss.flatMap standing

/-- The scope that a statement has as the body of a control statement. -/
def ownScope : Stmt → Option Scope
  | missing | block .. | label .. => none
  | s => some ⟨s.standing⟩

mutual

/-- The notes of a statement are those that the rules of scopes call for. -/
def Bound (round : Nat) (env : List Symbol) : Stmt → Prop
  | missing | jump .. | goto .. | empty _ => True
  | block _ scope ss => (scope = some ⟨standingAll ss⟩ ∧ Symbol.Apart (standingAll ss)) ∧
      BoundAll round env ss
  | expr _ x => x.Bound env
  | decl _ name ty init entry => init.Bound env ∧ Denotes round name .local ty entry
  | ifThen _ c ts t es e => c.Bound env ∧
      ((ts = t.ownScope ∧ Symbol.Apart t.standing) ∧ Bound round env t) ∧
      ((es = e.ownScope ∧ Symbol.Apart e.standing) ∧ Bound round env e)
  | .while _ c bs b | doWhile _ bs b c => c.Bound env ∧
      ((bs = b.ownScope ∧ Symbol.Apart b.standing) ∧ Bound round env b)
  | .for _ init c step bs b => ((∀ x ∈ init, x.Bound env) ∧ c.Bound env ∧ ∀ x ∈ step,
    x.Bound env) ∧
      ((bs = b.ownScope ∧ Symbol.Apart b.standing) ∧ Bound round env b)
  | label _ name entry => Denotes round name .label .void entry
  | ret _ v => v.Bound env

def BoundAll (round : Nat) (env : List Symbol) : List Stmt → Prop
  | [] => True
  | s :: ss => Bound round env s ∧ BoundAll round (s.varSymbol?.toList ++ env) ss

end

end Stmt

/-- The parameters and the top level of a body share one scope. -/
def Block.WellScoped (env : List String) (ps : List Param) (b : Block) : Prop :=
  (ps.map (·.name) ++ Stmt.declaresAll b.stmts).Nodup ∧
    Stmt.WellScopedAll ((ps.map (·.name)).reverse ++ env) b.stmts

def Block.Bound (round : Nat) (env : List Symbol) (ps : List Param) (b : Block) : Prop :=
  (∀ p ∈ ps, Denotes round p.name .local p.ty p.entry) ∧
    (b.scope = some ⟨ps.filterMap (·.entry) ++ Stmt.standingAll b.stmts⟩ ∧
      Symbol.Apart (ps.filterMap (·.entry) ++ Stmt.standingAll b.stmts)) ∧
    Stmt.BoundAll round ((ps.filterMap (·.entry)).reverse ++ env) b.stmts

namespace Global

def declares : Global → List String
  | missing => []
  | var v => [v.name]
  | function f => [f.name]

def varNames : Global → List String
  | var v => [v.name]
  | _ => []

def varSymbol? : Global → Option Symbol
  | var v => v.entry
  | _ => none

def WellScoped (env : List String) : Global → Prop
  | missing => True
  | var v => v.init.Sees env
  | function f => ∀ b ∈ f.body, b.WellScoped env f.params

def Bound (round : Nat) (env : List Symbol) : Global → Prop
  | missing => True
  | var v => v.init.Bound env ∧ Denotes round v.name .global v.ty v.entry
  | function f => ∀ b ∈ f.body, b.Bound round env f.params

/-- A global variable is in sight of what is defined after it. -/
def WellScopedAll (env : List String) : List Global → Prop
  | [] => True
  | g :: gs => g.WellScoped env ∧ WellScopedAll (g.varNames ++ env) gs

def BoundAll (round : Nat) (env : List Symbol) : List Global → Prop
  | [] => True
  | g :: gs => g.Bound round env ∧ BoundAll round (g.varSymbol?.toList ++ env) gs

end Global

def Handler.WellScoped (env : List String) (h : Handler) : Prop := ∀ b ∈ h.body, b.WellScoped env h.params

/-- A handler is for a known event and has its parameters. -/
def Handler.Known (h : Handler) : Prop :=
  ∃ kind, EventKind.ofName? h.name = some kind ∧ paramTypes h.params = kind.params

def Handler.Bound (round : Nat) (env : List Symbol) (h : Handler) : Prop :=
  ∀ b ∈ h.body, b.Bound round env h.params

namespace State

def declares (st : State) : List String := st.events.filterMap (Option.map (·.name))

def WellScoped (env : List String) (st : State) : Prop :=
  st.declares.Nodup ∧ ∀ h, some h ∈ st.events → h.WellScoped env

def KnowsEvents (st : State) : Prop := ∀ h, some h ∈ st.events → h.Known

def Bound (round : Nat) (env : List Symbol) (st : State) : Prop :=
  ∀ h, some h ∈ st.events → h.Bound round env

end State

namespace Script

/-- The names that a script declares in its outermost scope, after those of the library. -/
def declares (s : Script) : List String :=
  s.globals.flatMap Global.declares ++ s.states.filterMap (Option.map (·.name))

def varNames (s : Script) : List String := (s.globals.flatMap Global.varNames).reverse

def globalSymbols (s : Script) : List Symbol := (s.globals.filterMap Global.varSymbol?).reverse

/-- A script is well scoped where the given library functions are visible. -/
def WellScoped (visible : List LibraryFunction) (s : Script) : Prop :=
  (s.declares.Nodup ∧ ∀ name ∈ s.declares, name ∉ visible.map (·.name)) ∧
    Global.WellScopedAll [] s.globals ∧ ∀ st, some st ∈ s.states → st.WellScoped s.varNames

/-- The notes of a script are those that the rules of scopes call for. -/
def Bound (round : Nat) (s : Script) : Prop :=
  Global.BoundAll round [] s.globals ∧ ∀ st, some st ∈ s.states → st.Bound round s.globalSymbols

/-- Each handler of a script is for a known event and has its parameters. -/
def KnowsEvents (s : Script) : Prop := ∀ st, some st ∈ s.states → st.KnowsEvents

end Script
end Lsl
