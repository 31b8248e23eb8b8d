import Lsl.Proofs.Emitted

/-! Where the instructions of a body come from. Each of them is emitted for a part of the source: a variable
is reached for a name or a declaration, an operator, call or change of state stands for the expression or
statement that has it, and only statements have labels and branches. -/
namespace Lsl

open List

variable {i : Instr} {v : Option Ident} {x : Expr} {es : List Expr}

/-- Whether an instruction is an operation after which control goes on to the next one: neither a
label nor a branch, and neither the beginning of a frame nor a return. -/
def Instr.isStraight : Instr → Bool
  | .label _ | .jump _ | .jumpIf .. | .jumpNot .. | .enterFrame _ | .ret => false
  | _ => true

def Straight (c : List Instr) : Prop := ∀ i ∈ c, i.isStraight = true

namespace Straight

variable {c c' : List Instr}

theorem nil : Straight [] := by simp [Straight]

theorem single (h : i.isStraight = true) : Straight [i] := by simpa [Straight] using h

theorem append (h : Straight c) (h' : Straight c') : Straight (c ++ c') := by
  simpa [Straight, or_imp, forall_and] using And.intro h h'

end Straight

/-- Whether an instruction carries only types and constants, and control goes on after it. -/
def Instr.isPlain : Instr → Bool
  | .pushConst _ | .pushEmpty _ | .pop _ | .cast .. | .toList _ | .build _ | .callBegin _
  | .returnValue _ | .unwind _ | .print _ => true
  | _ => false

def Instr.isControl : Instr → Bool
  | .label _ | .jump _ | .jumpIf .. | .jumpNot .. | .ret => true
  | _ => false

/-- An instruction that is emitted for one of the given expressions and statements. -/
inductive Instr.Arises (e : Surroundings) (Exprs : Expr → Prop) (Stmts : Stmt → Prop) : Instr →
    Prop where
  | load {v : Ident} {s : Symbol} (hName : Exprs (.ident v)) (hEntry : v.entry = some s) :
      Arises e Exprs Stmts (e.loadInstr v s)
  | store {v : Ident} {s : Symbol} (keep : Bool) (hName : Exprs (.ident v)) (hEntry : v.entry = some s) :
      Arises e Exprs Stmts (e.storeInstr v s keep)
  | unary {p : Pos} {op : Operator} {x : Expr} {t : Ty} (operand : Ty) (hExpr : Exprs (.unary p op x t)) :
      Arises e Exprs Stmts (.unary op operand)
  | binary {p : Pos} {op : Operator} {l r : Expr} {la ra t : Ty} (hExpr : Exprs (.binary p op l r la ra t)) :
      Arises e Exprs Stmts (.binary op la ra)
  | assign {p : Pos} {op : Operator} {v : Option Ident} {x : Expr} {la ra t : Ty}
      (hExpr : Exprs (.assign p op v x la ra t)) (hOp : op ≠ .none) :
      Arises e Exprs Stmts (.binary op la ra)
  | incDec (decrement : Bool) (t : Ty) :
      Arises e Exprs Stmts (.binary (if decrement then .sub else .add) t t)
  | call {p : Pos} {name : String} {args : List Expr} {s : Symbol} {t : Ty}
      (hExpr : Exprs (.call p name args (some s) t)) : Arises e Exprs Stmts (Expr.callInstr e s)
  | initial {p : Pos} {name : String} {ty : Ty} {x : Expr} {s : Symbol}
      (hStmt : Stmts (.decl p name ty x (some s))) :
      Arises e Exprs Stmts (.store false ty (e.offset s) "" false)
  | state {p : Pos} {name : String} {s : Symbol} (hStmt : Stmts (.goto p name (some s))) :
      Arises e Exprs Stmts (.state (e.index s) name)
  | control {i : Instr} {s : Stmt} (hStmt : Stmts s) (hControl : i.isControl = true) :
      Arises e Exprs Stmts i
  | plain {i : Instr} (hPlain : i.isPlain = true) : Arises e Exprs Stmts i

def Arises (e : Surroundings) (Exprs : Expr → Prop) (Stmts : Stmt → Prop) (c : List Instr) : Prop :=
  ∀ i ∈ c, i.Arises e Exprs Stmts

section origins

variable {e : Surroundings} {Exprs : Expr → Prop} {Stmts : Stmt → Prop} {c c' : List Instr}

namespace Arises

theorem nil : Arises e Exprs Stmts [] := by simp [Arises]

theorem single (h : i.Arises e Exprs Stmts) : Arises e Exprs Stmts [i] := by
  simpa [Arises] using h

theorem plain (h : i.isPlain = true) : Arises e Exprs Stmts [i] := single (.plain h)

theorem append (h : Arises e Exprs Stmts c) (h' : Arises e Exprs Stmts c') :
    Arises e Exprs Stmts (c ++ c') := by
  simpa [Arises, or_imp, forall_and] using And.intro h h'

theorem coerce (source target : Ty) : Arises e Exprs Stmts (coerce source target) := by
  unfold Lsl.coerce
  split
  · exact nil
  · split
    · exact plain rfl
    · exact plain rfl

theorem exit {s : Stmt} (hStmt : Stmts s) : Arises e Exprs Stmts e.exit :=
  (plain rfl : Arises e Exprs Stmts [.unwind e.unwind]).append (single (.control hStmt rfl))

/-- Code for expressions alone runs from its first instruction to its last. -/
theorem straight (h : Arises e Exprs (fun _ => False) c) : Straight c := by
  intro i hi
  cases h i hi with
  | load =>
    unfold Surroundings.loadInstr
    split <;> rfl
  | control hStmt => exact hStmt.elim
  | plain hPlain => cases i <;> first | rfl | cases hPlain
  | _ => rfl

end Arises

namespace Surroundings

theorem load_arises {v : Ident} (hName : Exprs (.ident v)) (h : e.load v = .ok c) :
    Arises e Exprs Stmts c := by
  have hNeeds := h
  simp only [load, bind_eq_ok, need_eq_ok] at hNeeds
  obtain ⟨s, hEntry, _⟩ := hNeeds
  cases (load_eq hEntry).symm.trans h
  exact .single (.load hName hEntry)

theorem store_arises {v : Ident} {keep : Bool} (hName : Exprs (.ident v)) (h : e.store v keep = .ok c) :
    Arises e Exprs Stmts c := by
  have hNeeds := h
  simp only [store, bind_eq_ok, need_eq_ok] at hNeeds
  obtain ⟨s, hEntry, _⟩ := hNeeds
  cases (store_eq hEntry keep).symm.trans h
  exact .single (.store keep hName hEntry)

end Surroundings

namespace Expr

theorem assignCode_arises {p : Pos} {op : Operator} {la ra t tx : Ty} {keep : Bool} {cx : List Instr}
    (hExpr : Exprs (assign p op v x la ra t)) (hNames : ∀ y ∈ ofTarget v, Exprs y)
    (hx : Arises e Exprs Stmts cx) (h : assignCode e op v tx cx la ra keep = .ok c) :
    Arises e Exprs Stmts c := by
  simp only [assignCode, bind_eq_ok, need_eq_ok] at h
  obtain ⟨w, rfl, store, hStore, h⟩ := h
  have hName : Exprs (ident w) := hNames _ (by simp [ofTarget])
  have hStore := @Surroundings.store_arises e Exprs Stmts _ _ _ hName hStore
  split at h
  · cases h
    exact (hx.append (.coerce _ _)).append hStore
  · next hOp =>
    simp only [bind_eq_ok] at h
    obtain ⟨load, hLoad, h⟩ := h
    cases h
    exact ((((((e.load_arises hName hLoad).append (.coerce _ _)).append hx).append (.coerce _ _)).append
      (.single (.assign hExpr hOp))).append (.coerce _ _)).append hStore

theorem incDecCode_arises {d b keep : Bool} (hNames : ∀ y ∈ ofTarget v, Exprs y)
    (h : incDecCode e d b v keep = .ok c) : Arises e Exprs Stmts c := by
  simp only [incDecCode, bind_eq_ok, need_eq_ok] at h
  obtain ⟨w, rfl, load, hLoad, store, hStore, h⟩ := h
  cases h
  have hName : Exprs (ident w) := hNames _ (by simp [ofTarget])
  have hLoad := @Surroundings.load_arises e Exprs Stmts _ _ hName hLoad
  have hOne : Arises e Exprs Stmts [.pushConst (one w.ty)] := .plain rfl
  refine ((Arises.append ?_ hLoad).append (hOne.append (.single (.incDec d _)))).append
    (e.store_arises hName hStore)
  split
  · exact hLoad
  · exact .nil

theorem codeAll_arises (ih : ∀ x ∈ es, ∀ c, x.code e = .ok c → Arises e Exprs Stmts c)
    (h : codeAll e es = .ok c) : Arises e Exprs Stmts c := by
  induction es generalizing c with
  | nil =>
    cases h
    exact .nil
  | cons x es ihList =>
    simp only [codeAll, bind_eq_ok] at h
    obtain ⟨cx, hx, ces, hes, h⟩ := h
    cases h
    exact (ih x (by simp) cx hx).append (ihList (fun y hy => ih y (by simp [hy])) hes)

theorem codeArgs_arises {params : List Ty} (ih : ∀ x ∈ es, ∀ c, x.code e = .ok c → Arises e Exprs
    Stmts c)
    (h : codeArgs e params es = .ok c) :
    Arises e Exprs Stmts c := by
  induction es generalizing params c with
  | nil =>
    simp only [codeArgs] at h
    cases h
    exact .nil
  | cons x es ihList =>
    cases params with
    | nil => cases h
    | cons param params =>
      simp only [codeArgs, bind_eq_ok] at h
      obtain ⟨cx, hx, t, _, ces, hes, h⟩ := h
      cases h
      exact ((ih x (by simp) cx hx).append (.coerce _ _)).append
        (ihList (fun y hy => ih y (by simp [hy])) hes)

/-- The code of an expression is emitted for the parts of the expression. -/
theorem code_arises (x : Expr) (hParts : ∀ y ∈ x.parts, Exprs y) (c : List Instr) (h : x.code e = .ok c) :
    Arises e Exprs Stmts c := by
  induction x generalizing c with
  | missing =>
    cases h
    exact .nil
  | int p n t | float p n t | string p n t =>
    cases h
    exact .plain rfl
  | vector p x y z t ihx ihy ihz =>
    simp only [parts, mem_cons, mem_append, or_imp, forall_and] at hParts
    obtain ⟨⟨⟨_, nx⟩, ny⟩, nz⟩ := hParts
    simp only [code] at h
    split at h
    · cases h
      exact .plain rfl
    · simp only [bind_eq_ok] at h
      obtain ⟨cx, hx, cy, hy, cz, hz, _, _, _, _, _, _, h⟩ := h
      cases h
      exact ((((ihx nx cx hx).append (.coerce _ _)).append ((ihy ny cy hy).append (.coerce _ _))).append
        ((ihz nz cz hz).append (.coerce _ _))).append (.plain rfl)
  | rotation p x y z s t ihx ihy ihz ihs =>
    simp only [parts, mem_cons, mem_append, or_imp, forall_and] at hParts
    obtain ⟨⟨⟨⟨_, nx⟩, ny⟩, nz⟩, ns⟩ := hParts
    simp only [code] at h
    split at h
    · cases h
      exact .plain rfl
    · simp only [bind_eq_ok] at h
      obtain ⟨cx, hx, cy, hy, cz, hz, cs, hs, _, _, _, _, _, _, _, _, h⟩ := h
      cases h
      exact (((((ihx nx cx hx).append (.coerce _ _)).append ((ihy ny cy hy).append (.coerce _ _))).append
        ((ihz nz cz hz).append (.coerce _ _))).append ((ihs ns cs hs).append (.coerce _ _))).append
        (.plain rfl)
  | list p es t ih =>
    have hEach : ∀ x ∈ es, ∀ y ∈ x.parts, Exprs y :=
      forall_mem_partsAll.mp fun y hy => hParts y (by simp [parts, hy])
    simp only [code] at h
    split at h
    · cases h
      exact .plain rfl
    · simp only [bind_eq_ok] at h
      obtain ⟨ces, hCode, h⟩ := h
      cases h
      exact (codeAll_arises (fun x hx => ih x hx (hEach x hx)) hCode).append (.plain rfl)
  | ident v => exact e.load_arises (hParts _ (by simp [parts])) h
  | unary p op x t ih =>
    simp only [code, bind_eq_ok] at h
    obtain ⟨cx, hx, _, _, h⟩ := h
    cases h
    have hSelf : Exprs (unary p op x t) := hParts _ (by simp [parts])
    exact (ih (fun y hy => hParts y (by simp [parts, hy])) cx hx).append (.single (.unary _ hSelf))
  | binary p op l r la ra t ihl ihr =>
    simp only [parts, mem_cons, mem_append, or_imp, forall_and] at hParts
    obtain ⟨⟨hSelf, nl⟩, nr⟩ := hParts
    simp only [code, bind_eq_ok] at h
    obtain ⟨cl, hl, cr, hr, _, _, _, _, h⟩ := h
    cases h
    exact (((ihl nl cl hl).append (.coerce _ _)).append ((ihr nr cr hr).append (.coerce _ _))).append
      (.single (.binary (hSelf _ rfl)))
  | assign p op v x la ra t ih =>
    simp only [parts, mem_cons, mem_append, or_imp, forall_and] at hParts
    obtain ⟨⟨hSelf, nv⟩, nx⟩ := hParts
    simp only [code, bind_eq_ok] at h
    obtain ⟨cx, hx, _, _, h⟩ := h
    exact assignCode_arises (hSelf _ rfl) nv (ih nx cx hx) h
  | incDec p d b v t =>
    exact incDecCode_arises (fun y hy => hParts y (by simp [parts, hy])) h
  | cast p target x t ih =>
    simp only [code, bind_eq_ok] at h
    obtain ⟨cx, hx, _, _, h⟩ := h
    cases h
    refine (ih (fun y hy => hParts y (by simp [parts, hy])) cx hx).append ?_
    split
    · exact .nil
    · exact .plain rfl
  | call p name args f t ih =>
    have hEach : ∀ x ∈ args, ∀ y ∈ x.parts, Exprs y :=
      forall_mem_partsAll.mp fun y hy => hParts y (by simp [parts, hy])
    simp only [code, bind_eq_ok, need_eq_ok] at h
    obtain ⟨s, rfl, ca, hCode, h⟩ := h
    cases h
    have hSelf : Exprs (call p name args (some s) t) := hParts _ (by simp [parts])
    have hBegin : Arises e Exprs Stmts [.callBegin s.ty] := .plain rfl
    exact (hBegin.append (codeArgs_arises (fun x hx => ih x hx (hEach x hx)) hCode)).append
      (.single (.call hSelf))
  | paren p x t ih => exact ih (fun y hy => hParts y (by simp [parts, hy])) c h
  | print p x t ih =>
    simp only [code, bind_eq_ok] at h
    obtain ⟨cx, hx, _, _, h⟩ := h
    cases h
    exact (ih (fun y hy => hParts y (by simp [parts, hy])) cx hx).append (.plain rfl)

theorem discard_arises (x : Expr) (hParts : ∀ y ∈ x.parts, Exprs y) :
    ∀ c, x.discard e = .ok c → Arises e Exprs Stmts c := by
  induction x with
  | assign p op v x la ra t =>
    intro c h
    simp only [parts, mem_cons, mem_append, or_imp, forall_and] at hParts
    obtain ⟨⟨hSelf, nv⟩, nx⟩ := hParts
    simp only [discard, bind_eq_ok] at h
    obtain ⟨_, _, cx, hx, h⟩ := h
    exact assignCode_arises (hSelf _ rfl) nv (x.code_arises nx cx hx) h
  | incDec p d b v t =>
    exact fun c h => incDecCode_arises (fun y hy => hParts y (by simp [parts, hy])) h
  | paren p x t ih => exact ih fun y hy => hParts y (by simp [parts, hy])
  | _ =>
    intro c h
    simp only [discard, bind_eq_ok] at h
    obtain ⟨_, _, cx, hx, h⟩ := h
    cases h
    refine (code_arises _ hParts cx hx).append ?_
    split
    · exact .nil
    · exact .plain rfl

theorem discardAll_arises {es : List Expr} (hParts : ∀ y ∈ partsAll es, Exprs y)
    (h : discardAll e es = .ok c) : Arises e Exprs Stmts c := by
  induction es generalizing c with
  | nil =>
    cases h
    exact .nil
  | cons x es ih =>
    simp only [partsAll, mem_append, or_imp, forall_and] at hParts
    simp only [discardAll, bind_eq_ok] at h
    obtain ⟨cx, hx, ces, hRest, h⟩ := h
    cases h
    exact (x.discard_arises hParts.1 cx hx).append (ih hParts.2 hRest)

theorem code_straight (x : Expr) (c : List Instr) (h : x.code e = .ok c) : Straight c :=
  (@code_arises e (fun _ => True) _ x (fun _ _ => trivial) c h).straight

theorem discard_straight (x : Expr) (c : List Instr) (h : x.discard e = .ok c) : Straight c :=
  (@discard_arises e (fun _ => True) _ x (fun _ _ => trivial) c h).straight

theorem discardAll_straight (h : discardAll e es = .ok c) : Straight c :=
  (@discardAll_arises e (fun _ => True) _ c es (fun _ _ => trivial) h).straight

end Expr

namespace Stmt

theorem initCode_arises {ty : Ty} {x : Expr} (hParts : ∀ y ∈ x.parts, Exprs y)
    (h : initCode e ty x = .ok c) : Arises e Exprs Stmts c := by
  cases x with
  | missing =>
    cases h
    exact .plain rfl
  | _ =>
    simp only [initCode, bind_eq_ok] at h
    obtain ⟨cx, hx, h⟩ := h
    cases h
    exact (Expr.code_arises _ hParts cx hx).append (.coerce _ _)

theorem resultCode_arises {x : Expr} (hParts : ∀ y ∈ x.parts, Exprs y) (h : resultCode e x = .ok c) :
    Arises e Exprs Stmts c := by
  cases x with
  | missing =>
    cases h
    exact .nil
  | _ =>
    simp only [resultCode] at h
    split at h
    · cases h
      exact .nil
    · simp only [bind_eq_ok] at h
      obtain ⟨cx, hx, h⟩ := h
      cases h
      exact ((Expr.code_arises _ hParts cx hx).append (.coerce _ _)).append (.plain rfl)

theorem initCode_straight {ty : Ty} (h : initCode e ty x = .ok c) : Straight c :=
  (@initCode_arises e (fun _ => True) _ c ty x (fun _ _ => trivial) h).straight

theorem resultCode_straight (h : resultCode e x = .ok c) : Straight c :=
  (@resultCode_arises e (fun _ => True) _ c x (fun _ _ => trivial) h).straight

end Stmt

end origins

/-- Code of statements, made of pieces that leave the stack as they find it. Each piece belongs to one of the
given statements. -/
inductive Pieces (e : Surroundings) (Stmts : Stmt → Prop) : List Instr → Prop where
  | nil : Pieces e Stmts []
  | append {c d : List Instr} (hc : Pieces e Stmts c) (hd : Pieces e Stmts d) : Pieces e Stmts (c ++ d)
  | label {s : Stmt} (hStmt : Stmts s) (n : Label) : Pieces e Stmts [.label n]
  | jump {s : Stmt} (hStmt : Stmts s) (n : Label) : Pieces e Stmts [.jump n]
  | discard {s : Stmt} {x : Expr} {c : List Instr} (hStmt : Stmts s) (hParts : x.parts ⊆ s.exprs)
      (hPresent : x.isMissing = false) (hCode : x.discard e = .ok c) : Pieces e Stmts c
  /-- A condition and the branch that takes its value. -/
  | test {s : Stmt} {x : Expr} {c : List Instr} {i : Instr} (hStmt : Stmts s) (hParts : x.parts ⊆ s.exprs)
      (hPresent : x.isMissing = false) (hValue : x.ty ≠ .void) (hCode : x.code e = .ok c)
      (hBranch : ∃ n, i = .jumpIf x.ty n ∨ i = .jumpNot x.ty n) : Pieces e Stmts (c ++ [i])
  | initial {p : Pos} {name : String} {ty : Ty} {x : Expr} {s : Symbol} {c : List Instr}
      (hStmt : Stmts (.decl p name ty x (some s))) (hCode : Stmt.initCode e ty x = .ok c) :
      Pieces e Stmts (c ++ [.store false ty (e.offset s) "" false])
  | result {p : Pos} {x : Expr} {c : List Instr} (hStmt : Stmts (.ret p x))
      (hCode : Stmt.resultCode e x = .ok c) : Pieces e Stmts (c ++ e.exit)
  | goto {p : Pos} {name : String} {s : Symbol} (hStmt : Stmts (.goto p name (some s))) :
      Pieces e Stmts [.unwind e.unwind, .state (e.index s) name, .ret]

section pieces

variable {e : Surroundings} {Stmts : Stmt → Prop} {c : List Instr} {l l' : Labels}

namespace Stmt

theorem branchNot_pieces {s : Stmt} {n : Label} (hStmt : Stmts s) (hParts : x.parts ⊆ s.exprs)
    (hCond : x.isMissing = false ∧ x.ty ≠ .void) (h : branchNot e x n = .ok c) : Pieces e Stmts c := by
  simp only [branchNot, bind_eq_ok, Expr.typeOf_eq hCond.1, Except.ok.injEq, pure_eq_ok] at h
  obtain ⟨cx, hx, _, rfl, rfl⟩ := h
  exact .test hStmt hParts hCond.1 hCond.2 hx ⟨n, .inr rfl⟩

theorem discardAll_pieces {s : Stmt} (hStmt : Stmts s) (hParts : Expr.partsAll es ⊆ s.exprs)
    (hPresent : ∀ x ∈ es, x.isMissing = false) (h : Expr.discardAll e es = .ok c) : Pieces e Stmts c := by
  induction es generalizing c with
  | nil =>
    cases h
    exact .nil
  | cons x es ih =>
    simp only [Expr.discardAll, bind_eq_ok] at h
    obtain ⟨cx, hx, ces, hes, h⟩ := h
    cases h
    obtain ⟨hHead, hTail⟩ := List.append_subset.mp hParts
    exact (Pieces.discard hStmt hHead (hPresent x (by simp)) hx).append
      (ih hTail (fun y hy => hPresent y (by simp [hy])) hes)

theorem codeAll_pieces {ss : List Stmt} (ih : ∀ s ∈ ss, ∀ l c l', code e s l = .ok (c, l') →
    Pieces e Stmts c)
    (h : codeAll e ss l = .ok (c, l')) : Pieces e Stmts c := by
  induction ss generalizing l c with
  | nil =>
    obtain ⟨rfl, _⟩ := codeAll_nil.mp h
    exact .nil
  | cons s ss ihList =>
    obtain ⟨first, rest, l₁, hFirst, hRest, rfl⟩ := codeAll_cons.mp h
    exact (ih s (by simp) _ _ _ hFirst).append (ihList (fun t ht => ih t (by simp [ht])) hRest)

/-- The code of a statement is made of pieces for the statements in it. -/
theorem code_pieces {result : Ty} (s : Stmt) (hStmts : ∀ t ∈ s.parts, Stmts t ∧ t.Ruled result)
    (l : Labels)
    (c : List Instr) (l' : Labels) (h : code e s l = .ok (c, l')) : Pieces e Stmts c := by
  induction s generalizing l c l' with
  | missing =>
    obtain ⟨rfl, _⟩ := code_missing.mp h
    exact .nil
  | empty p =>
    obtain ⟨rfl, _⟩ := code_empty.mp h
    exact .nil
  | block p scope ss ih =>
    refine codeAll_pieces (fun s hs => ih s hs fun t ht => ?_) (code_block.mp h)
    exact hStmts t (mem_cons_of_mem _ (mem_partsAll.mpr ⟨s, hs, ht⟩))
  | expr p x =>
    obtain ⟨hSelf, hPresent⟩ := hStmts (expr p x) (by simp [parts])
    obtain ⟨hDiscard, _⟩ := code_expr.mp h
    exact .discard hSelf (List.Subset.refl _) hPresent hDiscard
  | decl p name ty x entry =>
    obtain ⟨s, first, rfl, hFirst, rfl, _⟩ := code_decl.mp h
    exact .initial (hStmts (decl p name ty x (some s)) (by simp [parts])).1 hFirst
  | ifThen p x ts t es f iht ihf =>
    simp only [parts, mem_cons, mem_append, or_imp, forall_and, forall_eq] at hStmts
    obtain ⟨⟨⟨hSelf, st⟩, sf⟩, ⟨hCond, rt⟩, rf⟩ := hStmts
    have hParts : x.parts ⊆ (ifThen p x ts t es f).exprs := by simp [exprs]
    have hThen := iht fun u hu => ⟨st u hu, rt u hu⟩
    obtain rfl | hMissing := f.missing_or_present
    · obtain ⟨test, first, hTest, hFirst, rfl⟩ := code_ifThen_missing.mp h
      exact ((branchNot_pieces hSelf hParts hCond hTest).append (hThen _ _ _ hFirst)).append
        (.label hSelf _)
    · obtain ⟨test, first, second, l₁, hTest, hFirst, hSecond, rfl⟩ := (code_ifThen hMissing).mp h
      have hElse := ihf fun u hu => ⟨sf u hu, rf u hu⟩
      exact ((((branchNot_pieces hSelf hParts hCond hTest).append (hThen _ _ _ hFirst)).append
        ((Pieces.jump hSelf _).append (.label hSelf _))).append (hElse _ _ _ hSecond)).append
        (.label hSelf _)
  | whileLoop p x bs b ih =>
    simp only [parts, mem_cons, forall_eq_or_imp] at hStmts
    obtain ⟨⟨hSelf, hCond⟩, hInner⟩ := hStmts
    have hParts : x.parts ⊆ (Stmt.while p x bs b).exprs := by simp [exprs]
    obtain ⟨test, body, hTest, hBody, rfl⟩ := code_while.mp h
    exact (((Pieces.label hSelf _).append (branchNot_pieces hSelf hParts hCond hTest)).append
      (ih hInner _ _ _ hBody)).append ((Pieces.jump hSelf _).append (.label hSelf _))
  | doWhile p bs b x ih =>
    simp only [parts, mem_cons, forall_eq_or_imp] at hStmts
    obtain ⟨⟨hSelf, hPresent, hValue⟩, hInner⟩ := hStmts
    have hParts : x.parts ⊆ (doWhile p bs b x).exprs := by simp [exprs]
    obtain ⟨body, test, hBody, hTest, rfl⟩ := (code_doWhile hPresent).mp h
    rw [append_assoc]
    exact ((Pieces.label hSelf _).append (ih hInner _ _ _ hBody)).append
      (.test hSelf hParts hPresent hValue hTest ⟨_, .inl rfl⟩)
  | forLoop p init x step bs b ih =>
    simp only [parts, mem_cons, forall_eq_or_imp] at hStmts
    obtain ⟨⟨hSelf, hInit, hCond, hStep⟩, hInner⟩ := hStmts
    have hParts : Expr.partsAll init ++ x.parts ++ Expr.partsAll step ⊆
      (Stmt.for p init x step bs b).exprs :=
      subset_append_left _ _
    simp only [append_subset] at hParts
    obtain ⟨⟨nInit, nx⟩, nStep⟩ := hParts
    obtain ⟨first, test, body, last, hFirst, hTest, hBody, hLast, rfl⟩ := code_for.mp h
    have hTested : Pieces e Stmts test := by
      rcases x.missing_or_present with rfl | hPresent
      · cases hTest
        exact .nil
      · rw [loopTest_eq hPresent] at hTest
        exact branchNot_pieces hSelf nx ⟨hPresent, by simpa [hPresent] using hCond⟩ hTest
    exact (((((discardAll_pieces hSelf nInit hInit hFirst).append (.label hSelf _)).append hTested).append
      (ih hInner _ _ _ hBody)).append (discardAll_pieces hSelf nStep hStep hLast)).append
      ((Pieces.jump hSelf _).append (.label hSelf _))
  | jump p name entry =>
    obtain ⟨s, _, rfl, _⟩ := code_jump.mp h
    exact .jump (hStmts (jump p name entry) (by simp [parts])).1 _
  | label p name entry =>
    obtain ⟨s, _, rfl, _⟩ := code_label.mp h
    exact .label (hStmts (label p name entry) (by simp [parts])).1 _
  | ret p x =>
    obtain ⟨value, hValue, rfl, _⟩ := code_ret.mp h
    exact .result (hStmts (ret p x) (by simp [parts])).1 hValue
  | goto p name entry =>
    obtain ⟨s, rfl, rfl, _⟩ := code_goto.mp h
    exact .goto (hStmts (goto p name (some s)) (by simp [parts])).1

end Stmt

/-- The code of statements is emitted for the statements and the expressions in them. -/
theorem Pieces.arises {Exprs : Expr → Prop} (hExprs : ∀ t, Stmts t → ∀ y ∈ t.exprs, Exprs y)
    (h : Pieces e Stmts c) : Arises e Exprs Stmts c := by
  have hUnwind : Arises e Exprs Stmts [.unwind e.unwind] := .plain rfl
  induction h with
  | nil => exact .nil
  | append _ _ ihc ihd => exact ihc.append ihd
  | label hStmt n | jump hStmt n => exact .single (.control hStmt rfl)
  | discard hStmt hParts _ hCode =>
    exact Expr.discard_arises _ (fun y hy => hExprs _ hStmt y (hParts hy)) _ hCode
  | test hStmt hParts _ _ hCode hBranch =>
    refine (Expr.code_arises _ (fun y hy => hExprs _ hStmt y (hParts hy)) _ hCode).append (.single ?_)
    obtain ⟨n, rfl | rfl⟩ := hBranch
    · exact .control hStmt rfl
    · exact .control hStmt rfl
  | initial hStmt hCode =>
    exact (Stmt.initCode_arises (hExprs _ hStmt) hCode).append (.single (.initial hStmt))
  | result hStmt hCode => exact (Stmt.resultCode_arises (hExprs _ hStmt) hCode).append (.exit hStmt)
  | @goto p name s hStmt =>
    have hState : Arises e Exprs Stmts [.state (e.index s) name] := .single (.state hStmt)
    exact hUnwind.append (hState.append (.single (.control hStmt rfl)))

end pieces
end Lsl
