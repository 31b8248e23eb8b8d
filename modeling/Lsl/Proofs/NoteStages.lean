import Lsl.Analysis.Declaration
import Lsl.Analysis.Typing
import Lsl.Proofs.Outcomes
import Lsl.Proofs.Trees

/-! How far notes are kept. A tree can be stripped of the notes of its later analyses. The declaration and the
resolution of names change nothing but their own notes, so what does not depend on these, such as the
variables of a frame, is the same before and after. -/
namespace Lsl

variable {chain : List Scope}

/-- How far the notes of a tree are kept: none of them, those of the declaration of names, or also those of
the resolution of later names. Types are not among them. -/
inductive Stage where
  | raw
  | declared
  | resolved
deriving DecidableEq

namespace Stage

def bound {α : Type} : Stage → Option α → Option α
  | raw, _ => none
  | _, note => note

def linked {α : Type} : Stage → Option α → Option α
  | resolved, note => note
  | _, _ => none

end Stage

variable {k : Stage} {es : List Expr} {ss : List Stmt}

def Ident.forget (k : Stage) (v : Ident) : Ident := { v with entry := k.bound v.entry, ty := .void }

namespace Expr

mutual

def forget (k : Stage) : Expr → Expr
  | missing => missing
  | int p n _ => int p n .void
  | float p x _ => float p x .void
  | string p s _ => string p s .void
  | vector p x y z _ => vector p (forget k x) (forget k y) (forget k z) .void
  | rotation p x y z s _ => rotation p (forget k x) (forget k y) (forget k z) (forget k s) .void
  | list p es _ => list p (forgetAll k es) .void
  | ident v => ident (v.forget k)
  | unary p op x _ => unary p op (forget k x) .void
  | binary p op l r _ _ _ => binary p op (forget k l) (forget k r) .void .void .void
  | assign p op v x _ _ _ => assign p op (v.map (·.forget k)) (forget k x) .void .void .void
  | incDec p d b v _ => incDec p d b (v.map (·.forget k)) .void
  | cast p target x _ => cast p target (forget k x) .void
  | call p name args c _ => call p name (forgetAll k args) (k.linked c) .void
  | paren p x _ => paren p (forget k x) .void
  | print p x _ => print p (forget k x) .void

def forgetAll (k : Stage) : List Expr → List Expr
  | [] => []
  | e :: es => forget k e :: forgetAll k es

end

end Expr

namespace Stmt

mutual

def forget (k : Stage) : Stmt → Stmt
  | missing => missing
  | block p scope ss => block p (k.bound scope) (forgetAll k ss)
  | expr p x => expr p (x.forget k)
  | decl p name ty init entry => decl p name ty (init.forget k) (k.bound entry)
  | ifThen p c ts t es e =>
    ifThen p (c.forget k) (k.bound ts) (forget k t) (k.bound es) (forget k e)
  | .while p c bs b => .while p (c.forget k) (k.bound bs) (forget k b)
  | doWhile p bs b c => doWhile p (k.bound bs) (forget k b) (c.forget k)
  | .for p init c step bs b =>
    .for p (Expr.forgetAll k init) (c.forget k) (Expr.forgetAll k step) (k.bound bs) (forget k b)
  | jump p l entry => jump p l (k.linked entry)
  | label p name entry => label p name (k.bound entry)
  | ret p v => ret p (v.forget k)
  | goto p s entry => goto p s (k.linked entry)
  | empty p => empty p

def forgetAll (k : Stage) : List Stmt → List Stmt
  | [] => []
  | s :: ss => forget k s :: forgetAll k ss

end

end Stmt

def Block.forget (k : Stage) (b : Block) : Block :=
  { b with scope := k.bound b.scope, stmts := Stmt.forgetAll k b.stmts }

def Param.forget (k : Stage) (p : Param) : Param := { p with entry := k.bound p.entry }

def GlobalVar.forget (k : Stage) (v : GlobalVar) : GlobalVar :=
  { v with init := v.init.forget k, entry := k.bound v.entry }

def Function.forget (k : Stage) (f : Function) : Function :=
  { f with params := f.params.map (·.forget k), body := f.body.map (·.forget k)
           entry := k.bound f.entry }

def Global.forget (k : Stage) : Global → Global
  | .missing => .missing
  | .var v => .var (v.forget k)
  | .function f => .function (f.forget k)

def Handler.forget (k : Stage) (h : Handler) : Handler :=
  { h with params := h.params.map (·.forget k), body := h.body.map (·.forget k)
           kind := (k.bound (some h.kind)).getD ⟨0⟩, entry := k.bound h.entry }

def State.forget (k : Stage) (s : State) : State :=
  { s with events := s.events.map (Option.map (·.forget k)), entry := k.bound s.entry
           scope := k.bound s.scope }

def Script.forget (k : Stage) (s : Script) : Script :=
  { s with globals := s.globals.map (·.forget k), states := s.states.map (Option.map (·.forget k))
           scope := k.bound s.scope }

namespace Expr

theorem forgetAll_eq_map (es : List Expr) : forgetAll k es = es.map (forget k) := by
  induction es with
  | nil => rfl
  | cons e es ih => rw [forgetAll, ih, List.map_cons]

end Expr

/-- Only the last stage keeps what the resolution of later names notes. -/
theorem Stage.linked_eq_none {α : Type} (h : k ≠ .resolved) (note : Option α) : k.linked note = none := by
  cases k with
  | resolved => exact absurd rfl h
  | raw | declared => rfl

namespace Ident

theorem bind_raw (chain : List Scope) (v : Ident) : (v.bind chain).forget .raw = v.forget .raw := by
  unfold Ident.bind
  split <;> rfl

theorem target_bind_raw (chain : List Scope) (v : Option Ident) :
    (v.map (·.bind chain)).map (·.forget .raw) = v.map (·.forget .raw) := by
  cases v with
  | none => rfl
  | some v => exact congrArg some (v.bind_raw chain)

end Ident

namespace Expr

theorem bindAll_raw (ih : ∀ e ∈ es, (e.bind chain).forget .raw = e.forget .raw) :
    forgetAll .raw (bindAll chain es) = forgetAll .raw es := by
  induction es with
  | nil => rfl
  | cons e es ihTail =>
    rw [bindAll, forgetAll, forgetAll, ih e (by simp), ihTail fun x hx => ih x (by simp [hx])]

theorem bind_raw (chain : List Scope) (x : Expr) : (x.bind chain).forget .raw = x.forget .raw := by
  induction x with
  | missing | int | float | string => rfl
  | ident v => exact congrArg ident (v.bind_raw chain)
  | incDec p d b v t => simp only [bind, forget, Ident.target_bind_raw]
  | list p es t ih | call p name es c t ih => simp only [bind, forget, bindAll_raw ih]
  | assign p op v x la ra t ih => simp only [bind, forget, ih, Ident.target_bind_raw]
  | vector | rotation | binary | unary | cast | paren | print => simp only [bind, forget, *]

theorem linkAll_keeps (ih : ∀ e ∈ es, (e.link chain).forget k = e.forget k) :
    forgetAll k (linkAll chain es) = forgetAll k es := by
  induction es with
  | nil => rfl
  | cons e es ihTail =>
    rw [linkAll, forgetAll, forgetAll, ih e (by simp), ihTail fun x hx => ih x (by simp [hx])]

theorem link_keeps (hk : k ≠ .resolved) (chain : List Scope) (x : Expr) :
    (x.link chain).forget k = x.forget k := by
  induction x with
  | missing | int | float | string | ident | incDec => rfl
  | list p es t ih | call p name es c t ih =>
    simp only [link, forget, linkAll_keeps ih, Stage.linked_eq_none hk]
  | vector | rotation | binary | assign | unary | cast | paren | print => simp only [link, forget, *]

end Expr

namespace Declares

variable {α β : Type} {m : Declares α} {f : α → Declares β} {P : α → Prop} {Q : β → Prop}

/-- Every result of a walk has a property, whatever has been declared and found before. -/
def Yields (m : Declares α) (P : α → Prop) : Prop := ∀ d, P (m d).1

namespace Yields

theorem trivial : Yields m fun _ => True := fun _ => True.intro

theorem pure {a : α} (h : P a) : Yields (pure a) P := fun _ => h

theorem bind (hm : Yields m P) (hf : ∀ a, P a → Yields (f a) Q) : Yields (m >>= f) Q :=
  fun d => hf _ (hm d) _

theorem mapM {step : α → Declares α} {view : α → β} {as : List α}
    (h : ∀ a ∈ as, Yields (step a) fun a' => view a' = view a) :
    Yields (as.mapM step) fun as' => as'.map view = as.map view := by
  induction as with
  | nil => exact .pure rfl
  | cons a as ih =>
    rw [List.mapM_cons]
    refine .bind (h a (by simp)) fun a' ha => ?_
    refine .bind (ih fun x hx => h x (by simp [hx])) fun as' has => .pure ?_
    rw [List.map_cons, List.map_cons, ha, has]

end Yields

theorem expr_raw (x : Expr) : Yields (expr x) fun x' => x'.forget .raw = x.forget .raw :=
  fun d => x.bind_raw d.chain

theorem optional_raw (x : Expr) : Yields (optional x) fun x' => x'.forget .raw = x.forget .raw :=
  fun d => x.bind_raw d.chain

theorem exprs_raw (es : List Expr) :
    Yields (exprs es) fun es' => Expr.forgetAll .raw es' = Expr.forgetAll .raw es :=
  fun d => Expr.bindAll_raw fun e _ => e.bind_raw d.chain

theorem body_raw {s : Stmt} (h : Yields (stmt s) fun s' => s'.forget .raw = s.forget .raw) :
    Yields (body s (stmt s)) fun r => r.2.forget .raw = s.forget .raw := by
  cases s with
  | missing => exact .bind .trivial fun _ _ => .pure rfl
  | block | label => exact .bind h fun _ hBody => .pure hBody
  | _ =>
    refine .bind .trivial fun _ _ => .bind h fun _ hBody => ?_
    exact .bind .trivial fun _ _ => .pure hBody

theorem stmts_raw (ih : ∀ s ∈ ss, Yields (stmt s) fun s' => s'.forget .raw = s.forget .raw) :
    Yields (stmts ss) fun ss' => Stmt.forgetAll .raw ss' = Stmt.forgetAll .raw ss := by
  induction ss with
  | nil => exact .pure rfl
  | cons s ss ihTail =>
    refine .bind (ih s (by simp)) fun s' hs => ?_
    refine .bind (ihTail fun x hx => ih x (by simp [hx])) fun ss' hss => .pure ?_
    rw [Stmt.forgetAll, Stmt.forgetAll, hs, hss]

theorem stmt_raw (s : Stmt) : Yields (stmt s) fun s' => s'.forget .raw = s.forget .raw := by
  induction s with
  | missing => exact .bind .trivial fun _ _ => .pure rfl
  | jump | goto | empty => exact .pure rfl
  | block p scope ss ih =>
    refine .bind .trivial fun _ _ => .bind (stmts_raw ih) fun ss' hss => ?_
    refine .bind .trivial fun _ _ => .pure ?_
    simp only [Stmt.forget, hss, Stage.bound]
  | expr p x =>
    refine .bind (expr_raw x) fun x' hx => .pure ?_
    simp only [Stmt.forget, hx]
  | decl p name ty init entry =>
    refine .bind (optional_raw init) fun x' hx => .bind .trivial fun _ _ => .pure ?_
    simp only [Stmt.forget, hx, Stage.bound]
  | ifThen p c ts t es e iht ihe =>
    refine .bind (expr_raw c) fun c' hc => .bind (body_raw iht) fun r hr => ?_
    obtain ⟨ts', t'⟩ := r
    obtain rfl | hPresent := e.missing_or_present
    · refine .pure ?_
      simp only [Stmt.forget, hc, hr, Stage.bound]
    · simp only [hPresent, Bool.false_eq_true, if_false]
      refine .bind (body_raw ihe) fun r' hr' => .pure ?_
      simp only [Stmt.forget, hc, hr, hr', Stage.bound]
  | whileLoop p c bs b ih =>
    refine .bind (expr_raw c) fun c' hc => .bind (body_raw ih) fun r hr => .pure ?_
    simp only [Stmt.forget, hc, hr, Stage.bound]
  | doWhile p bs b c ih =>
    refine .bind (body_raw ih) fun r hr => .bind (expr_raw c) fun c' hc => .pure ?_
    simp only [Stmt.forget, hc, hr, Stage.bound]
  | forLoop p init c step bs b ih =>
    refine .bind (exprs_raw init) fun init' hInit => .bind (optional_raw c) fun c' hc => ?_
    refine .bind (exprs_raw step) fun step' hStep => .bind (body_raw ih) fun r hr => .pure ?_
    simp only [Stmt.forget, hInit, hc, hStep, hr, Stage.bound]
  | label p name entry =>
    refine .bind .trivial fun _ _ => .bind .trivial fun _ _ => ?_
    exact .bind .trivial fun _ _ => .pure rfl
  | ret p v =>
    refine .bind (optional_raw v) fun x' hx => .pure ?_
    simp only [Stmt.forget, hx]

theorem paramTypes_forget (k : Stage) (ps : List Param) :
    paramTypes (ps.map (·.forget k)) = paramTypes ps := by
  simp [paramTypes, Param.forget, Function.comp_def]

theorem params_raw (ps : List Param) :
    Yields (ps.mapM param) fun ps' => ps'.map (·.forget .raw) = ps.map (·.forget .raw) :=
  .mapM fun _ _ => .bind .trivial fun _ _ => .pure rfl

end Declares

namespace Stmt

theorem linkAll_keeps {here around : List Scope}
    (ih : ∀ s ∈ ss, ∀ here around, (s.link here around).forget k = s.forget k) :
    forgetAll k (linkAll here around ss) = forgetAll k ss := by
  induction ss with
  | nil => rfl
  | cons s ss ihTail =>
    rw [linkAll, forgetAll, forgetAll, ih s (by simp), ihTail fun x hx => ih x (by simp [hx])]

theorem link_keeps (hk : k ≠ .resolved) (s : Stmt) (here around : List Scope) :
    (s.link here around).forget k = s.forget k := by
  have hExprs : ∀ (here : List Scope) (es : List Expr),
      Expr.forgetAll k (Expr.linkAll here es) = Expr.forgetAll k es :=
    fun here _ => Expr.linkAll_keeps fun e _ => e.link_keeps hk here
  induction s generalizing here around with
  | missing | label | empty => rfl
  | jump p name entry | goto p name entry =>
    simp only [link, forget, Stage.linked_eq_none hk]
  | block p scope ss ih => simp only [link, forget, linkAll_keeps ih]
  | expr p x | ret p x | decl p name ty init entry =>
    simp only [link, forget, Expr.link_keeps hk]
  | ifThen | whileLoop | doWhile | forLoop => simp only [link, forget, Expr.link_keeps hk, *]

end Stmt
end Lsl
