import Lsl.Proofs.RenewedNotes
import Lsl.Script.Node

/-! Scripts that are stored alike. The stored form of a tree leaves out its notes and nothing else, and the
analyses make the notes anew, so such scripts compile alike. -/
namespace Lsl

namespace Node

def kindOf : Node → String
  | null => ""
  | node f _ _ => f.kind

theorem ne_of_kindOf {n m : Node} (hKind : decide (n.kindOf = m.kindOf) = false) : n ≠ m :=
  fun h => of_decide_eq_false hKind (congrArg kindOf h)

/-- Elements that are stored alike one by one look alike one by one. -/
theorem map_inj_of {α β γ : Type} {f : α → β} {g : α → γ} {xs ys : List α}
    (ih : ∀ x ∈ xs, ∀ y, f x = f y → g x = g y) (h : xs.map f = ys.map f) : xs.map g = ys.map g := by
  induction xs generalizing ys with
  | nil =>
    cases ys with
    | nil => rfl
    | cons y ys => cases h
  | cons x xs ihTail =>
    cases ys with
    | nil => cases h
    | cons y ys =>
      obtain ⟨hHead, hTail⟩ := List.cons.inj h
      rw [List.map_cons, List.map_cons, ih x (by simp) y hHead,
        ihTail (fun z hz => ih z (by simp [hz])) hTail]

/-- What is stored alike looks alike, also where it may be missing. -/
theorem optionMap_inj_of {α γ : Type} {f : Option α → Node} {g : α → γ} {a b : Option α}
    (hNone : ∀ x, f none ≠ f (some x)) (hSome : ∀ x y, f (some x) = f (some y) → g x = g y)
    (h : f a = f b) : a.map g = b.map g := by
  cases a with
  | none =>
    cases b with
    | none => rfl
    | some y => exact absurd h (hNone y)
  | some x =>
    cases b with
    | none => exact absurd h.symm (hNone x)
    | some y => exact congrArg some (hSome x y h)

/-- The expression of a node, made of the expressions of its children. A child that is no variable where one
is assigned stands for a missing one. -/
def buildExpr (f : NodeFields) (xs : List Expr) : Expr :=
  let target : Expr → Option Ident
    | .ident v => some v
    | _ => none
  match f.kind, xs with
  | "int", _ => .int (posOf f) f.int .void
  | "float", _ => .float (posOf f) f.float .void
  | "string", _ => .string (posOf f) f.text .void
  | "ident", _ => .ident { pos := posOf f, name := f.name, member := f.member }
  | "list", xs => .list (posOf f) xs .void
  | "call", xs => .call (posOf f) f.name xs none .void
  | "vector", [x, y, z] => .vector (posOf f) x y z .void
  | "rotation", [x, y, z, s] => .rotation (posOf f) x y z s .void
  | "unary", [x] => .unary (posOf f) f.op x .void
  | "cast", [x] => .cast (posOf f) f.ty x .void
  | "paren", [x] => .paren (posOf f) x .void
  | "print", [x] => .print (posOf f) x .void
  | "binary", [l, r] => .binary (posOf f) f.op l r .void .void .void
  | "assign", [v, x] => .assign (posOf f) f.op (target v) x .void .void .void
  | "incdec", [v] => .incDec (posOf f) (f.flags % 2 == 1) (f.flags / 2 % 2 == 1) (target v) .void
  | _, _ => .missing

mutual

def restoreExpr : Node → Expr
  | null => .missing
  | node f kids _ => buildExpr f (restoreExprs kids)

def restoreExprs : List Node → List Expr
  | [] => []
  | n :: ns => restoreExpr n :: restoreExprs ns

end

/-- The flags tell a decrement and what stands before its variable. -/
theorem incDecFlags_bits (d b : Bool) :
    (incDecFlags d b % 2 == 1) = d ∧ (incDecFlags d b / 2 % 2 == 1) = b := by
  revert d b
  decide

theorem restoreExprs_ofExprs {es : List Expr} (ih : ∀ e ∈ es, restoreExpr (ofExpr e) = e.forget .raw) :
    restoreExprs (ofExprs es) = Expr.forgetAll .raw es := by
  induction es with
  | nil => rfl
  | cons e es ihTail =>
    rw [ofExprs, restoreExprs, ih e (by simp), ihTail fun x hx => ih x (by simp [hx]), Expr.forgetAll]

/-- What is stored of an expression is all but its notes. -/
theorem restoreExpr_ofExpr (x : Expr) : restoreExpr (ofExpr x) = x.forget .raw := by
  induction x with
  | missing | int | float | string | ident => rfl
  | list p es t ih | call p name es c t ih =>
    simp only [ofExpr, restoreExpr, restoreExprs_ofExprs ih]
    rfl
  | vector | rotation | unary | binary | cast | paren | print =>
    simp only [ofExpr, restoreExpr, restoreExprs, *]
    rfl
  | assign p op v x la ra t ih =>
    simp only [ofExpr, restoreExpr, restoreExprs, ih]
    cases v <;> rfl
  | incDec p d b v t =>
    change Expr.incDec _ (incDecFlags d b % 2 == 1) (incDecFlags d b / 2 % 2 == 1) _ _ = _
    rw [(incDecFlags_bits d b).1, (incDecFlags_bits d b).2]
    cases v <;> rfl

/-- The statement of a node, made of what its children are as expressions and as statements. -/
def buildStmt (f : NodeFields) (xs : List Expr) (ss : List Stmt) (lists : List (List Expr)) : Stmt :=
  match f.kind, xs, ss with
  | "block", _, ss => .block (posOf f) none ss
  | "expr", [x], _ => .expr (posOf f) x
  | "decl", [x], _ => .decl (posOf f) f.name f.ty x none
  | "if", [c, _, _], [_, t, e] => .ifThen (posOf f) c none t none e
  | "while", [c, _], [_, b] => .while (posOf f) c none b
  | "do", [_, c], [b, _] => .doWhile (posOf f) none b c
  | "for", [c, _], [_, b] => .for (posOf f) (lists.getD 0 []) c (lists.getD 1 []) none b
  | "jump", _, _ => .jump (posOf f) f.name none
  | "label", _, _ => .label (posOf f) f.name none
  | "return", [x], _ => .ret (posOf f) x
  | "goto", _, _ => .goto (posOf f) f.name none
  | "empty", _, _ => .empty (posOf f)
  | _, _, _ => .missing

mutual

def restoreStmt : Node → Stmt
  | null => .missing
  | node f kids lists => buildStmt f (restoreExprs kids) (restoreStmts kids) (lists.map restoreExprs)

def restoreStmts : List Node → List Stmt
  | [] => []
  | n :: ns => restoreStmt n :: restoreStmts ns

end

theorem restoreStmts_ofStmts {ss : List Stmt} (ih : ∀ s ∈ ss, restoreStmt (ofStmt s) = s.forget .raw) :
    restoreStmts (ofStmts ss) = Stmt.forgetAll .raw ss := by
  induction ss with
  | nil => rfl
  | cons s ss ihTail =>
    rw [ofStmts, restoreStmts, ih s (by simp), ihTail fun x hx => ih x (by simp [hx]), Stmt.forgetAll]

/-- What is stored of a statement is all but its notes. -/
theorem restoreStmt_ofStmt (s : Stmt) : restoreStmt (ofStmt s) = s.forget .raw := by
  induction s with
  | missing | jump | label | goto | empty => rfl
  | block p scope ss ih => simp only [ofStmt, restoreStmt, restoreStmts_ofStmts ih]; rfl
  | expr p x | decl p name ty x entry | ret p x =>
    simp only [ofStmt, restoreStmt, restoreExprs, restoreExpr_ofExpr]
    rfl
  | ifThen | whileLoop | doWhile =>
    simp only [ofStmt, restoreStmt, restoreExprs, restoreStmts, restoreExpr_ofExpr, *]
    rfl
  | forLoop p init c step bs b ih =>
    simp only [ofStmt, restoreStmt, restoreExprs, restoreStmts, restoreExpr_ofExpr, ih, List.map_cons,
      restoreExprs_ofExprs fun e _ => restoreExpr_ofExpr e]
    rfl

/-- Expressions that are stored alike differ in their notes only. -/
theorem ofExpr_inj {x w : Expr} (h : ofExpr x = ofExpr w) : x.forget .raw = w.forget .raw := by
  rw [← restoreExpr_ofExpr, h, restoreExpr_ofExpr]

/-- Statements that are stored alike differ in their notes only. -/
theorem ofStmt_inj {x w : Stmt} (h : ofStmt x = ofStmt w) : x.forget .raw = w.forget .raw := by
  rw [← restoreStmt_ofStmt, h, restoreStmt_ofStmt]

theorem ofBlock_inj {b c : Option Block} (h : ofBlock b = ofBlock c) :
    b.map (·.forget .raw) = c.map (·.forget .raw) := by
  refine optionMap_inj_of (fun _ => Node.noConfusion) ?_ h
  intro b c h
  have hBlock := ofStmt_inj (x := .block b.pos b.scope b.stmts) (w := .block c.pos c.scope c.stmts) h
  obtain ⟨hPos, -, hStmts⟩ := Stmt.block.inj hBlock
  simp only [Block.forget, hPos, hStmts, Stage.bound]

theorem ofParam_inj {p q : Param} (h : ofParam p = ofParam q) : p.forget .raw = q.forget .raw := by
  have hFields := (node.inj h).1
  have hPos : p.pos = q.pos := congrArg posOf hFields
  have hName : p.name = q.name := congrArg NodeFields.name hFields
  have hTy : p.ty = q.ty := congrArg NodeFields.ty hFields
  simp only [Param.forget, hPos, hName, hTy, Stage.bound]

theorem ofGlobal_inj {g g' : Global} (h : ofGlobal g = ofGlobal g') : g.forget .raw = g'.forget .raw := by
  cases g with
  | missing =>
    cases g' with
    | missing => rfl
    | _ => exact absurd h (ne_of_kindOf rfl)
  | var v =>
    cases g' with
    | var v' =>
      obtain ⟨hFields, hKids, -⟩ := node.inj h
      have hPos : v.pos = v'.pos := congrArg posOf hFields
      have hName : v.name = v'.name := congrArg NodeFields.name hFields
      have hTy : v.ty = v'.ty := congrArg NodeFields.ty hFields
      have hInit := ofExpr_inj (List.cons.inj hKids).1
      simp only [Global.forget, GlobalVar.forget, hPos, hName, hTy, hInit, Stage.bound]
    | _ => exact absurd h (ne_of_kindOf rfl)
  | function f =>
    cases g' with
    | function f' =>
      obtain ⟨hFields, hKids, hLists⟩ := node.inj h
      have hPos : f.pos = f'.pos := congrArg posOf hFields
      have hName : f.name = f'.name := congrArg NodeFields.name hFields
      have hResult : f.result = f'.result := congrArg NodeFields.ty hFields
      have hBody := ofBlock_inj (List.cons.inj hKids).1
      have hParams := map_inj_of (fun _ _ _ => ofParam_inj) (List.cons.inj hLists).1
      simp only [Global.forget, Function.forget, hPos, hName, hResult, hBody, hParams, Stage.bound]
    | _ => exact absurd h (ne_of_kindOf rfl)

theorem ofHandler_inj {a b : Option Handler} (h : ofHandler a = ofHandler b) :
    a.map (·.forget .raw) = b.map (·.forget .raw) := by
  refine optionMap_inj_of (fun _ => Node.noConfusion) ?_ h
  intro a b h
  obtain ⟨hFields, hKids, hLists⟩ := node.inj h
  have hPos : a.pos = b.pos := congrArg posOf hFields
  have hName : a.name = b.name := congrArg NodeFields.name hFields
  have hBody := ofBlock_inj (List.cons.inj hKids).1
  have hParams := map_inj_of (fun _ _ _ => ofParam_inj) (List.cons.inj hLists).1
  simp only [Handler.forget, hPos, hName, hBody, hParams, Stage.bound]

theorem ofState_inj {a b : Option State} (h : ofState a = ofState b) :
    a.map (·.forget .raw) = b.map (·.forget .raw) := by
  refine optionMap_inj_of (fun _ => Node.noConfusion) ?_ h
  intro a b h
  obtain ⟨hFields, hKids, -⟩ := node.inj h
  have hPos : a.pos = b.pos := congrArg posOf hFields
  have hName : a.name = b.name := congrArg NodeFields.name hFields
  have hEvents := map_inj_of (fun _ _ _ => ofHandler_inj) hKids
  simp only [State.forget, hPos, hName, hEvents, Stage.bound]

/-- Scripts that are stored alike differ in their notes only. -/
theorem ofScript_inj {s t : Script} (h : ofScript s = ofScript t) : s.forget .raw = t.forget .raw := by
  obtain ⟨hFields, -, hLists⟩ := node.inj h
  have hPos : s.pos = t.pos := congrArg posOf hFields
  simp only [List.cons.injEq, and_true] at hLists
  have hGlobals := map_inj_of (fun _ _ _ => ofGlobal_inj) hLists.1
  have hStates := map_inj_of (fun _ _ _ => ofState_inj) hLists.2
  simp only [Script.forget, hPos, hGlobals, hStates, Stage.bound]

end Node

/-- Scripts that are stored alike compile alike. -/
theorem compile_eq_of_ofScript {s t : Script} (h : Node.ofScript s = Node.ofScript t) (o : CompileOptions) :
    compile (some s) o = compile (some t) o := by
  rw [← compile_forget s, ← compile_forget t, Node.ofScript_inj h]

end Lsl
