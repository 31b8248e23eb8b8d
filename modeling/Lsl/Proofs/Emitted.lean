import Lsl.Proofs.Accepted

/-! The shape of emitted code. Equations give the code of an expression in terms of the code of its
parts and the code of a statement in terms of the labels that were given out before it; later proofs
open the generator only through them. -/
namespace Lsl

open List

variable {param : Ty} {scope bs : Option Scope} {init step : List Expr} {l l' : Labels} {e : Surroundings}
  {x : Expr} {cx : List Instr} {b : Stmt}

variable {α : Type} {v : Ident} {es : List Expr} {ces : List Instr} {op : Operator} {la ra : Ty}
  {name : String} {sym : Symbol} {params : List Ty} {keep : Bool} {ss : List Stmt} {entry : Option Symbol}
  {ts : Option Scope}

/-- A step that is made of two has done the first and then the second. -/
theorem emits_bind_eq {β : Type} {m : Emits α} {f : α → Emits β} {l'' : Labels} {b : β} :
    (m >>= f) l = .ok (b, l'') ↔ ∃ a l', m l = .ok (a, l') ∧ f a l' = .ok (b, l'') := by
  change (m l >>= fun p => f p.1 p.2) = _ ↔ _
  rw [bind_eq_ok]
  simp

theorem emits_pure_eq {a b : α} : (pure a : Emits α) l = .ok (b, l') ↔ a = b ∧ l = l' := by
  change Except.ok (a, l) = .ok (b, l') ↔ _
  simp

theorem emits_lift_eq {m : Except Fault α} {a : α} :
    (liftM m : Emits α) l = .ok (a, l') ↔ m = .ok a ∧ l = l' := by
  change (m >>= fun a => pure (a, l)) = _ ↔ _
  simp only [bind_eq_ok, pure_eq_ok, Prod.mk.injEq]
  constructor
  · rintro ⟨b, h, rfl, rfl⟩
    exact ⟨h, rfl⟩
  · rintro ⟨h, rfl⟩
    exact ⟨a, h, rfl, rfl⟩

namespace Labels

def next (l : Labels) : Labels := { l with last := l.last + 1 }

def labelFor (l : Labels) (s : Symbol) : Label :=
  (l.known.lookup (s.round, s.index)).getD (l.last + 1)

def asked (l : Labels) (s : Symbol) : Labels :=
  match l.known.lookup (s.round, s.index) with
  | some _ => l
  | none => { last := l.last + 1, known := ((s.round, s.index), l.last + 1) :: l.known }

end Labels

theorem emits_fresh_eq {n : Label} :
    Emits.fresh l = .ok (n, l') ↔ l.last + 1 = n ∧ l.next = l' := by
  change Except.ok (_, _) = .ok (n, l') ↔ _
  simp [Labels.next]

theorem emits_labelOf_eq {s : Symbol} {n : Label} :
    Emits.labelOf s l = .ok (n, l') ↔ l.labelFor s = n ∧ l.asked s = l' := by
  have hRun : Emits.labelOf s l = .ok (l.labelFor s, l.asked s) := by
    change (match l.known.lookup (s.round, s.index) with
      | some n => pure n
      | none => _ : Emits Label) l = _
    unfold Labels.labelFor Labels.asked
    cases hKnown : l.known.lookup (s.round, s.index) with
    | some n => rfl
    | none => rfl
  rw [hRun]
  simp

theorem Value.zero_ty (t : Ty) : (zero t).ty = t := by
  cases t <;> rfl

namespace Surroundings

def loadInstr (e : Surroundings) (v : Ident) (s : Symbol) : Instr :=
  if s.kind = .global then .pushGlobal v.ty (e.offset s) v.member
  else .pushLocal v.ty (e.offset s) v.member

def storeInstr (e : Surroundings) (v : Ident) (s : Symbol) (keep : Bool) : Instr :=
  .store (s.kind == .global) v.ty (e.offset s) v.member keep

theorem load_eq {s : Symbol} (h : v.entry = some s) :
    e.load v = .ok [e.loadInstr v s] := by
  simp only [load, h, Fault.need, ok_bind, pure_ok, loadInstr]
  split <;> rfl

theorem store_eq {s : Symbol} (h : v.entry = some s) (keep : Bool) :
    e.store v keep = .ok [e.storeInstr v s keep] := by
  simp only [store, h, Fault.need, ok_bind, pure_ok, storeInstr]

end Surroundings

namespace Expr

variable {p : Pos} {y z s : Expr} {cy cz cs : List Instr} {t : Ty}

-- The equations of the generator are derived here, once for all the lemmas that open it.
attribute [local simp] code codeAll codeArgs discard discardAll

theorem typeOf_eq (h : x.isMissing = false) : x.typeOf = .ok x.ty := by
  cases x with
  | missing => cases h
  | _ => rfl

theorem code_vector_folded {v : Value} (h : (vector p x y z t).fold e.constants = some v) :
    (vector p x y z t).code e = .ok [.pushConst v] := by
  simp only [code, h]

theorem code_vector (hFold : (vector p x y z t).fold e.constants = none)
    (hx : x.code e = .ok cx) (hy : y.code e = .ok cy) (hz : z.code e = .ok cz)
    (px : x.isMissing = false) (py : y.isMissing = false) (pz : z.isMissing = false) :
    (vector p x y z t).code e = .ok (cx ++ coerce x.ty .float ++ (cy ++ coerce y.ty .float) ++
      (cz ++ coerce z.ty .float) ++ [Instr.build .vector]) := by
  simp only [code, hFold, hx, hy, hz, typeOf_eq px, typeOf_eq py, typeOf_eq pz]
  rfl

theorem code_rotation_folded {v : Value} (h : (rotation p x y z s t).fold e.constants = some v) :
    (rotation p x y z s t).code e = .ok [.pushConst v] := by
  simp only [code, h]

theorem code_rotation (hFold : (rotation p x y z s t).fold e.constants = none)
    (hx : x.code e = .ok cx) (hy : y.code e = .ok cy) (hz : z.code e = .ok cz)
    (hs : s.code e = .ok cs) (px : x.isMissing = false) (py : y.isMissing = false)
    (pz : z.isMissing = false) (ps : s.isMissing = false) :
    (rotation p x y z s t).code e = .ok (cx ++ coerce x.ty .float ++ (cy ++ coerce y.ty .float) ++
      (cz ++ coerce z.ty .float) ++ (cs ++ coerce s.ty .float) ++ [Instr.build .rotation]) := by
  simp only [code, hFold, hx, hy, hz, hs, typeOf_eq px, typeOf_eq py, typeOf_eq pz, typeOf_eq ps]
  rfl

theorem code_list_folded {v : Value} (h : (list p es t).fold e.constants = some v) :
    (list p es t).code e = .ok [.pushConst v] := by
  simp only [code, h]

theorem code_list (hFold : (list p es t).fold e.constants = none) (h : codeAll e es = .ok ces) :
    (list p es t).code e = .ok (ces ++ [Instr.toList es.length]) := by
  simp only [code, hFold, h]
  rfl

theorem code_unary (hx : x.code e = .ok cx) (px : x.isMissing = false) :
    (unary p op x t).code e = .ok (cx ++ [Instr.unary op x.ty]) := by
  simp only [code, hx, typeOf_eq px]
  rfl

theorem code_binary (hx : x.code e = .ok cx) (hy : y.code e = .ok cy) (px : x.isMissing = false)
    (py : y.isMissing = false) :
    (binary p op x y la ra t).code e =
      .ok (cx ++ coerce x.ty la ++ (cy ++ coerce y.ty ra) ++ [Instr.binary op la ra]) := by
  simp only [code, hx, hy, typeOf_eq px, typeOf_eq py]
  rfl

theorem code_assign {v : Option Ident} (hx : x.code e = .ok cx) (px : x.isMissing = false) :
    (assign p op v x la ra t).code e = assignCode e op v x.ty cx la ra true := by
  simp only [code, hx, typeOf_eq px]
  rfl

theorem code_cast {target : Ty} (hx : x.code e = .ok cx) (px : x.isMissing = false) :
    (cast p target x t).code e =
      .ok (cx ++ if x.ty = target then [] else [Instr.cast x.ty target]) := by
  simp only [code, hx, typeOf_eq px]
  rfl

theorem code_call {args : List Expr} {ca : List Instr} (h : codeArgs e (sym.params.getD []) args = .ok ca) :
    (call p name args (some sym) t).code e =
      .ok (Instr.callBegin sym.ty :: ca ++ [callInstr e sym]) := by
  simp only [code, Fault.need, ok_bind, h]
  rfl

theorem code_print (hx : x.code e = .ok cx) (px : x.isMissing = false) :
    (print p x t).code e = .ok (cx ++ [Instr.print x.ty]) := by
  simp only [code, hx, typeOf_eq px]
  rfl

theorem codeAll_cons (hx : x.code e = .ok cx) (h : codeAll e es = .ok ces) :
    codeAll e (x :: es) = .ok (cx ++ ces) := by
  simp only [codeAll, hx, h]
  rfl

theorem codeArgs_cons (hx : x.code e = .ok cx) (px : x.isMissing = false)
    (h : codeArgs e params es = .ok ces) :
    codeArgs e (param :: params) (x :: es) = .ok (cx ++ coerce x.ty param ++ ces) := by
  simp only [codeArgs, hx, h, typeOf_eq px]
  rfl

/-- A plain assignment converts the value and stores it. -/
theorem assignCode_none (h : v.entry = some sym) :
    assignCode e .none (some v) t cx la ra keep =
      .ok (cx ++ coerce t v.ty ++ [e.storeInstr v sym keep]) := by
  simp only [assignCode, Fault.need, ok_bind, pure_ok, e.store_eq h, if_true]

/-- An assignment with an operator reads the variable before the value is evaluated. -/
theorem assignCode_op {res : Ty} (h : v.entry = some sym) (hOp : op ≠ .none)
    (hRes : op.binaryResult? v.ty t = some res) :
    assignCode e op (some v) t cx la ra keep =
      .ok ([e.loadInstr v sym] ++ coerce v.ty la ++ cx ++ coerce t ra ++ [Instr.binary op la ra] ++
        coerce res v.ty ++ [e.storeInstr v sym keep]) := by
  simp only [assignCode, Fault.need, ok_bind, pure_ok, e.store_eq h, e.load_eq h, hRes, hOp,
    if_false, Option.getD_some]

theorem incDecCode_eq {d b : Bool} (h : v.entry = some sym) :
    incDecCode e d b (some v) keep =
      .ok ((if keep && !b then [e.loadInstr v sym] else []) ++ [e.loadInstr v sym] ++
        [Instr.pushConst (one v.ty), .binary (if d then .sub else .add) v.ty v.ty] ++
        [e.storeInstr v sym (keep && b)]) := by
  simp only [incDecCode, Fault.need, ok_bind, pure_ok, e.store_eq h, e.load_eq h]

theorem argumentsFit_cons (h : argumentsFit (param :: params) ((x :: es).map ty) = true) :
    Ty.coercible param x.ty = true ∧ argumentsFit params (es.map ty) = true := by
  simpa [argumentsFit] using h

/-- The cases of evaluating an expression for its effects: assignments do not keep their value, and
any other value is removed again. -/
@[elab_as_elim]
theorem discard_cases {motive : Expr → Prop}
    (assign : ∀ p op v x la ra t, motive (assign p op v x la ra t))
    (incDec : ∀ p d b v t, motive (incDec p d b v t))
    (paren : ∀ p x t, motive x → motive (paren p x t))
    (other : ∀ x : Expr, (∀ e c, x.isMissing = false → x.code e = .ok c →
      x.discard e = .ok (c ++ if x.ty = .void then [] else [Instr.pop x.ty])) → motive x)
    (x : Expr) : motive x := by
  induction x with
  | assign p op v x la ra t => exact assign p op v x la ra t
  | incDec p d b v t => exact incDec p d b v t
  | paren p x t ih => exact paren p x t ih
  | missing => exact other _ fun _ _ hPresent => by cases hPresent
  | _ =>
    refine other _ fun e c _ hCode => ?_
    simp only [discard, typeOf, ok_bind, hCode, pure_ok]

theorem discard_assign {v : Option Ident} (hx : x.code e = .ok cx) (px : x.isMissing = false) :
    (assign p op v x la ra t).discard e = assignCode e op v x.ty cx la ra false := by
  simp only [discard, hx, typeOf_eq px]
  rfl

theorem discardAll_cons (hx : x.discard e = .ok cx) (h : discardAll e es = .ok ces) :
    discardAll e (x :: es) = .ok (cx ++ ces) := by
  simp only [discardAll, hx, h]
  rfl

end Expr

namespace Stmt

variable {p : Pos} {c : List Instr}

attribute [local simp] code codeAll initCode resultCode

theorem initCode_eq {ty : Ty} (hPresent : x.isMissing = false) (hx : x.code e = .ok cx) :
    initCode e ty x = .ok (cx ++ coerce x.ty ty) := by
  cases x with
  | missing => cases hPresent
  | _ => simp only [initCode, hx]; rfl

theorem resultCode_eq (hPresent : x.isMissing = false) (hResult : e.result ≠ .void)
    (hx : x.code e = .ok cx) :
    resultCode e x = .ok (cx ++ coerce x.ty e.result ++ [Instr.returnValue e.result]) := by
  cases x with
  | missing => cases hPresent
  | _ => simp only [resultCode, hResult, if_false, hx]; rfl

/-- A body without a result does not evaluate what it returns, and neither does one that returns
nothing. -/
theorem resultCode_nil (h : x.isMissing = true ∨ e.result = .void) :
    resultCode e x = .ok [] := by
  cases x with
  | missing => rfl
  | _ =>
    rcases h with h | h
    · cases h
    · simp only [resultCode, h, if_true]

theorem branchNot_eq (hPresent : x.isMissing = false) (hx : x.code e = .ok cx) (n : Label) :
    branchNot e x n = .ok (cx ++ [Instr.jumpNot x.ty n]) := by
  simp only [branchNot, hx, Expr.typeOf_eq hPresent]
  rfl

theorem loopTest_eq (hPresent : x.isMissing = false) (n : Label) :
    loopTest e x n = branchNot e x n := by
  simp only [loopTest, hPresent, Bool.false_eq_true, if_false]

theorem code_missing : code e .missing l = .ok (c, l') ↔ [] = c ∧ l = l' := by
  simp only [code, emits_pure_eq]

theorem code_empty : code e (.empty p) l = .ok (c, l') ↔ [] = c ∧ l = l' := by
  simp only [code, emits_pure_eq]

theorem code_block :
    code e (.block p scope ss) l = .ok (c, l') ↔ codeAll e ss l = .ok (c, l') := by
  simp only [code]

theorem code_expr : code e (.expr p x) l = .ok (c, l') ↔ x.discard e = .ok c ∧ l = l' := by
  simp only [code, emits_lift_eq]

theorem code_decl {ty : Ty} :
    code e (.decl p name ty x entry) l = .ok (c, l') ↔ ∃ s first, entry = some s ∧
      initCode e ty x = .ok first ∧ first ++ [Instr.store false ty (e.offset s) "" false] = c ∧
      l = l' := by
  simp only [code, emits_bind_eq, emits_lift_eq, emits_pure_eq, need_eq_ok, and_assoc, exists_and_left,
    exists_eq_left']

theorem code_ifThen_missing {es : Option Scope} {t : Stmt} :
    code e (.ifThen p x ts t es .missing) l = .ok (c, l') ↔ ∃ test first,
      branchNot e x (l.last + 1) = .ok test ∧ code e t l.next = .ok (first, l') ∧
      test ++ first ++ [Instr.label (l.last + 1)] = c := by
  simp only [code, isMissing, if_true, emits_bind_eq, emits_lift_eq, emits_pure_eq, emits_fresh_eq, and_assoc,
    exists_and_left, exists_eq_left', exists_eq_right_right]

theorem code_ifThen {es : Option Scope} {t f : Stmt} (hElse : f.isMissing = false) :
    code e (.ifThen p x ts t es f) l = .ok (c, l') ↔ ∃ test first second l₁,
      branchNot e x (l.last + 1) = .ok test ∧ code e t l.next = .ok (first, l₁) ∧
      code e f l₁.next = .ok (second, l') ∧
      test ++ first ++ [Instr.jump (l₁.last + 1), .label (l.last + 1)] ++ second ++
        [Instr.label (l₁.last + 1)] = c := by
  simp only [code, hElse, Bool.false_eq_true, if_false, emits_bind_eq, emits_lift_eq, emits_pure_eq,
    emits_fresh_eq, and_assoc, exists_and_left, exists_eq_left', exists_eq_right_right]
  constructor
  · rintro ⟨test, hTest, first, l₁, hFirst, second, hSecond, hc⟩
    exact ⟨test, hTest, first, second, l₁, hFirst, hSecond, hc⟩
  · rintro ⟨test, hTest, first, second, l₁, hFirst, hSecond, hc⟩
    exact ⟨test, hTest, first, l₁, hFirst, second, hSecond, hc⟩

theorem code_while :
    code e (.while p x bs b) l = .ok (c, l') ↔ ∃ test body,
      branchNot e x (l.next.last + 1) = .ok test ∧ code e b l.next.next = .ok (body, l') ∧
      Instr.label (l.last + 1) :: test ++ body ++ [Instr.jump (l.last + 1), .label (l.next.last + 1)] = c :=
        by
  simp only [code, emits_bind_eq, emits_lift_eq, emits_pure_eq, emits_fresh_eq, and_assoc, exists_and_left,
    exists_eq_left', exists_eq_right_right]

theorem code_doWhile (hPresent : x.isMissing = false) :
    code e (.doWhile p bs b x) l = .ok (c, l') ↔ ∃ body test,
      code e b l.next = .ok (body, l') ∧ x.code e = .ok test ∧
      Instr.label (l.last + 1) :: body ++ test ++ [Instr.jumpIf x.ty (l.last + 1)] = c := by
  simp only [code, emits_bind_eq, emits_lift_eq, emits_pure_eq, emits_fresh_eq, Expr.typeOf_eq hPresent,
    Except.ok.injEq, and_assoc, exists_and_left, exists_eq_left']
  constructor
  · rintro ⟨body, _, hBody, test, hTest, hc, rfl⟩
    exact ⟨body, hBody, test, hTest, hc⟩
  · rintro ⟨body, hBody, test, hTest, hc⟩
    exact ⟨body, _, hBody, test, hTest, hc, rfl⟩

theorem code_for :
    code e (.for p init x step bs b) l = .ok (c, l') ↔ ∃ first test body last,
      Expr.discardAll e init = .ok first ∧ loopTest e x (l.next.last + 1) = .ok test ∧
      code e b l.next.next = .ok (body, l') ∧ Expr.discardAll e step = .ok last ∧
      first ++ [Instr.label (l.last + 1)] ++ test ++ body ++ last ++
        [Instr.jump (l.last + 1), .label (l.next.last + 1)] = c := by
  simp only [code, emits_bind_eq, emits_lift_eq, emits_pure_eq, emits_fresh_eq, and_assoc, exists_and_left,
    exists_eq_left']
  constructor
  · rintro ⟨first, hFirst, test, hTest, body, _, hBody, last, hLast, hc, rfl⟩
    exact ⟨first, hFirst, test, hTest, body, hBody, last, hLast, hc⟩
  · rintro ⟨first, hFirst, test, hTest, body, hBody, last, hLast, hc⟩
    exact ⟨first, hFirst, test, hTest, body, _, hBody, last, hLast, hc, rfl⟩

theorem code_jump :
    code e (.jump p name entry) l = .ok (c, l') ↔ ∃ s, entry = some s ∧
      [.jump (l.labelFor s)] = c ∧ l.asked s = l' := by
  simp only [code, emits_bind_eq, emits_lift_eq, emits_pure_eq, emits_labelOf_eq, need_eq_ok, and_assoc,
    exists_and_left, exists_eq_left']

theorem code_label :
    code e (.label p name entry) l = .ok (c, l') ↔ ∃ s, entry = some s ∧
      [.label (l.labelFor s)] = c ∧ l.asked s = l' := by
  simp only [code, emits_bind_eq, emits_lift_eq, emits_pure_eq, emits_labelOf_eq, need_eq_ok, and_assoc,
    exists_and_left, exists_eq_left']

theorem code_ret : code e (.ret p x) l = .ok (c, l') ↔ ∃ value,
    resultCode e x = .ok value ∧ value ++ e.exit = c ∧ l = l' := by
  simp only [code, emits_bind_eq, emits_lift_eq, emits_pure_eq, and_assoc, exists_and_left, exists_eq_left']

theorem code_goto :
    code e (.goto p name entry) l = .ok (c, l') ↔ ∃ s, entry = some s ∧
      [.unwind e.unwind, .state (e.index s) name, .ret] = c ∧ l = l' := by
  simp only [code, emits_bind_eq, emits_lift_eq, emits_pure_eq, need_eq_ok, and_assoc, exists_and_left,
    exists_eq_left']

theorem codeAll_nil : codeAll e [] l = .ok (c, l') ↔ [] = c ∧ l = l' := by
  simp only [codeAll, emits_pure_eq]

theorem codeAll_cons {s : Stmt} :
    codeAll e (s :: ss) l = .ok (c, l') ↔ ∃ first rest l₁, code e s l = .ok (first, l₁) ∧
      codeAll e ss l₁ = .ok (rest, l') ∧ first ++ rest = c := by
  simp only [codeAll, emits_bind_eq, emits_pure_eq, exists_eq_right_right]
  constructor
  · rintro ⟨first, l₁, hFirst, rest, hRest, hc⟩
    exact ⟨first, rest, l₁, hFirst, hRest, hc⟩
  · rintro ⟨first, rest, l₁, hFirst, hRest, hc⟩
    exact ⟨first, l₁, hFirst, rest, hRest, hc⟩

/-- A statement that the analyses have left ready for emission, in a body with the given result: its
types obey the rules and every symbol is noted. -/
structure Ready (result : Ty) (s : Stmt) : Prop where
  exprs : ∀ x ∈ s.exprs, x.Ruled
  stmts : ∀ t ∈ s.parts, t.Ruled result
  notes : ∀ n ∈ s.notes, n.symbol?.isSome = true

namespace Ready

variable {result : Ty}

theorem part {s t : Stmt} (h : Ready result s) (ht : t ∈ s.parts) : Ready result t := by
  obtain ⟨hParts, hExprs, hNotes⟩ := of_mem_parts ht
  exact ⟨fun x hx => h.exprs x (hExprs hx), fun u hu => h.stmts u (hParts hu),
    fun n hn => h.notes n (hNotes hn)⟩

theorem block (h : Ready result (.block p scope ss)) : ∀ s ∈ ss, Ready result s := by
  intro s hs
  refine ⟨fun x hx => h.exprs x ?_, fun t ht => h.stmts t ?_, fun n hn => h.notes n ?_⟩
  · exact mem_exprsAll.mpr ⟨s, hs, hx⟩
  · simp only [parts, mem_cons, mem_partsAll]
    exact Or.inr ⟨s, hs, ht⟩
  · exact mem_notesAll.mpr ⟨s, hs, hn⟩

theorem expr (h : Ready result (.expr p x)) : x.isMissing = false ∧ x.WellTyped :=
  ⟨h.stmts (.expr p x) (by simp [parts]), h.exprs⟩

theorem decl {ty : Ty} (h : Ready result (.decl p name ty x entry)) :
    x.WellTyped ∧ (x.isMissing = true ∨ Ty.coercible ty x.ty = true) ∧ ∃ s, entry = some s :=
  ⟨h.exprs, h.stmts (.decl p name ty x entry) (by simp [parts]),
    Option.isSome_iff_exists.mp (h.notes (.declares .local ty entry) (by simp [Stmt.notes]))⟩

theorem ifThen {es : Option Scope} {t f : Stmt} (h : Ready result (.ifThen p x ts t es f)) :
    x.isMissing = false ∧ x.ty ≠ .void ∧ x.WellTyped ∧ Ready result t ∧ Ready result f := by
  obtain ⟨hExprs, hStmts, hNotes⟩ := h
  simp only [Stmt.exprs, Stmt.notes, parts, mem_append, mem_cons, or_imp, forall_and,
    forall_eq] at hExprs hStmts hNotes
  exact ⟨hStmts.1.1.1, hStmts.1.1.2, hExprs.1.1, ⟨hExprs.1.2, hStmts.1.2, hNotes.1.2⟩,
    hExprs.2, hStmts.2, hNotes.2⟩

theorem whileLoop (h : Ready result (.while p x bs b)) :
    x.isMissing = false ∧ x.ty ≠ .void ∧ x.WellTyped ∧ Ready result b := by
  obtain ⟨hExprs, hStmts, hNotes⟩ := h
  simp only [Stmt.exprs, Stmt.notes, parts, mem_append, mem_cons, or_imp, forall_and,
    forall_eq] at hExprs hStmts hNotes
  exact ⟨hStmts.1.1, hStmts.1.2, hExprs.1, hExprs.2, hStmts.2, hNotes.2⟩

theorem doWhile (h : Ready result (.doWhile p bs b x)) :
    x.isMissing = false ∧ x.ty ≠ .void ∧ x.WellTyped ∧ Ready result b := by
  obtain ⟨hExprs, hStmts, hNotes⟩ := h
  simp only [Stmt.exprs, Stmt.notes, parts, mem_append, mem_cons, or_imp, forall_and,
    forall_eq] at hExprs hStmts hNotes
  exact ⟨hStmts.1.1, hStmts.1.2, hExprs.2, hExprs.1, hStmts.2, hNotes.1⟩

theorem forLoop (h : Ready result (.for p init x step bs b)) :
    (∀ y ∈ init, y.isMissing = false ∧ y.WellTyped) ∧
    (∀ y ∈ step, y.isMissing = false ∧ y.WellTyped) ∧
    x.WellTyped ∧ (x.isMissing = true ∨ x.ty ≠ .void) ∧ Ready result b := by
  obtain ⟨hExprs, hStmts, hNotes⟩ := h
  simp only [Stmt.exprs, Stmt.notes, parts, mem_append, mem_cons, or_imp, forall_and,
    forall_eq] at hExprs hStmts hNotes
  obtain ⟨⟨⟨hInit, hx⟩, hStep⟩, hb⟩ := hExprs
  obtain ⟨⟨hInitPresent, hCond, hStepPresent⟩, hStmts⟩ := hStmts
  refine ⟨fun y hy => ⟨hInitPresent y hy, fun w hw => ?_⟩,
    fun y hy => ⟨hStepPresent y hy, fun w hw => ?_⟩, hx, hCond, hb, hStmts, hNotes.2⟩
  · exact hInit w (Expr.mem_partsAll.mpr ⟨y, hy, hw⟩)
  · exact hStep w (Expr.mem_partsAll.mpr ⟨y, hy, hw⟩)

theorem jump (h : Ready result (.jump p name entry)) : ∃ s, entry = some s :=
  Option.isSome_iff_exists.mp (h.notes (.uses .label entry) (by simp [Stmt.notes]))

theorem label (h : Ready result (.label p name entry)) : ∃ s, entry = some s :=
  Option.isSome_iff_exists.mp (h.notes (.declares .label .void entry) (by simp [Stmt.notes]))

theorem ret (h : Ready result (.ret p x)) : x.WellTyped ∧
    (x.isMissing = true ∨ result = .void ∨ Ty.assignable result x.ty = true) :=
  ⟨h.exprs, h.stmts (.ret p x) (by simp [parts])⟩

theorem goto {name : String} {entry : Option Symbol} (h : Ready result (.goto p name entry)) :
    ∃ s, entry = some s :=
  Option.isSome_iff_exists.mp (h.notes (.uses .state entry) (by simp [Stmt.notes]))

end Ready

end Stmt

end Lsl
