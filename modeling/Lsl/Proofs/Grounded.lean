import Lsl.Proofs.ControlFlow

/-! What the instructions of a body refer to. A variable is read or written at the place of a symbol
that the body uses or declares, a call names the symbol of a function that the body calls, and an
operator stands only where it has a result. -/
namespace Lsl

variable {e : Surroundings}

/-- A selection that a variable may have: none, or one of the components of vectors and rotations. -/
def IsMember (member : String) : Prop := member = "" ∨ (componentIndex? member).isSome = true

def Instr.Grounded (e : Surroundings) (Known : Note → Prop) : Instr → Prop
  | .pushLocal _ o m =>
    ∃ s, Known (.uses .local (some s)) ∧ s.kind ≠ .global ∧ o = e.offset s ∧ IsMember m
  | .pushGlobal _ o m =>
    ∃ s, Known (.uses .local (some s)) ∧ s.kind = .global ∧ o = e.offset s ∧ IsMember m
  | .store g t o m _ =>
    (∃ s, Known (.uses .local (some s)) ∧ (g = true ↔ s.kind = .global) ∧ o = e.offset s ∧
      IsMember m) ∨
      ∃ s, Known (.declares .local t (some s)) ∧ g = false ∧ o = e.offset s ∧ m = ""
  | .unary op _ => op.isUnary = true
  | .binary op _ _ => op.isBinary = true
  | .call c => ∃ s, Known (.uses .function (some s)) ∧ .call c = Expr.callInstr e s
  | .state i _ => ∃ s, Known (.uses .state (some s)) ∧ i = e.index s
  | .unknown _ => False
  | _ => True

def Grounded (e : Surroundings) (Known : Note → Prop) (c : List Instr) : Prop :=
  ∀ i ∈ c, i.Grounded e Known

theorem hasMember_isMember {t : Ty} {member : String} (h : hasMember t member = true) :
    IsMember member := by
  refine Or.inr ?_
  unfold hasMember at h
  split at h
  · rename_i hMember
    rw [hMember]
    decide
  · simp only [Bool.and_eq_true] at h
    exact h.2

theorem Ident.Ruled.isMember {v : Ident} (h : v.Ruled) : IsMember v.member := by
  obtain ⟨s, _, ⟨hNone, _⟩ | ⟨_, hMember, _⟩⟩ := h
  · exact Or.inl hNone
  · exact hasMember_isMember hMember

namespace Operator

/-- An operator with a result stands between two operands. -/
theorem isBinary_of_result {op : Operator} {l r t : Ty} (h : op.binaryResult? l r = some t) :
    op.isBinary = true := by
  cases op <;> first | rfl | cases h

theorem isUnary_of_result {op : Operator} {t t' : Ty} (h : op.unaryResult? t = some t') :
    op.isUnary = true := by
  cases op <;> first | rfl | (cases t <;> cases h)

end Operator

/-- An instruction that is emitted for well-typed parts refers to the symbols noted in them. -/
theorem Instr.Arises.grounded {Exprs : Expr → Prop} {Stmts : Stmt → Prop} {Known : Note → Prop}
    {i : Instr}
    (hExprs : ∀ y, Exprs y → y.Ruled ∧ ∀ n ∈ y.notes, Known n)
    (hStmts : ∀ t, Stmts t → ∀ n ∈ t.notes, Known n) (h : i.Arises e Exprs Stmts) : i.Grounded e
      Known := by
  have hVariable : ∀ {v s}, Exprs (.ident v) → v.entry = some s →
      Known (.uses .local (some s)) ∧ IsMember v.member := by
    intro v s hName hEntry
    obtain ⟨hRuled, hKnown⟩ := hExprs _ hName
    exact ⟨hKnown _ (by simp [Expr.notes, hEntry]), Ident.Ruled.isMember hRuled⟩
  cases h with
  | @load v s hName hEntry =>
    obtain ⟨hUse, hMember⟩ := hVariable hName hEntry
    unfold Surroundings.loadInstr
    split
    · next hKind => exact ⟨s, hUse, hKind, rfl, hMember⟩
    · next hKind => exact ⟨s, hUse, hKind, rfl, hMember⟩
  | @store v s keep hName hEntry =>
    obtain ⟨hUse, hMember⟩ := hVariable hName hEntry
    exact .inl ⟨s, hUse, by simp, rfl, hMember⟩
  | unary operand hExpr =>
    obtain ⟨_, hResult⟩ := (hExprs _ hExpr).1
    exact Operator.isUnary_of_result hResult
  | binary hExpr =>
    obtain ⟨_, _, hResult, _⟩ := (hExprs _ hExpr).1
    exact Operator.isBinary_of_result hResult
  | @assign p op v x la ra t hExpr hOp =>
    obtain ⟨w, sym, _, _, _, ⟨hNone, _⟩ | ⟨_, res, hResult, _⟩⟩ := (hExprs _ hExpr).1.assign_cases
    · exact absurd hNone hOp
    · exact Operator.isBinary_of_result hResult
  | incDec decrement t => cases decrement <;> rfl
  | @call p name args s t hExpr => exact ⟨s, (hExprs _ hExpr).2 _ (by simp [Expr.notes]), rfl⟩
  | @initial p name ty x s hStmt => exact .inr ⟨s, hStmts _ hStmt _ (by simp [Stmt.notes]), rfl, rfl, rfl⟩
  | @state p name s hStmt => exact ⟨s, hStmts _ hStmt _ (by simp [Stmt.notes]), rfl⟩
  | control hStmt hControl => cases i <;> trivial
  | plain hPlain => cases i <;> trivial

section body

variable {Top : Symbol → Prop} {round : Nat} {r : Routine} {b : Block} {l l' : Labels} {c : List Instr}

namespace Routine.Sound

theorem ready_body (h : r.Sound Top round b) : Stmt.Ready r.result (.block b.pos b.scope b.stmts) := by
  refine ⟨fun x hx => ?_, fun u hu => ?_, fun n hn => ?_⟩
  · obtain ⟨s, hs, hx⟩ := Stmt.mem_exprsAll.mp hx
    exact (h.ready s hs).exprs x hx
  · obtain rfl | hu := List.mem_cons.mp hu
    · trivial
    · obtain ⟨s, hs, hu⟩ := Stmt.mem_partsAll.mp hu
      exact (h.ready s hs).stmts u hu
  · obtain ⟨s, hs, hn⟩ := Stmt.mem_notesAll.mp hn
    exact (h.ready s hs).notes n hn

/-- The code of the body of a sound routine is made of pieces for the statements in it. -/
theorem pieces (h : r.Sound Top round b) (hCode : Stmt.codeAll e b.stmts l = .ok (c, l')) :
    Pieces e (· ∈ (Stmt.block b.pos b.scope b.stmts).parts) c :=
  Stmt.code_pieces (.block b.pos b.scope b.stmts) (fun t ht => ⟨ht, h.ready_body.stmts t ht⟩) l c l'
    (Stmt.code_block.mpr hCode)

/-- The code of a sound routine enters its frame first, and the rest is emitted for its body. -/
theorem arises (h : r.Sound Top round b) (hCode : Stmt.codeAll e b.stmts l = .ok (c, l')) (frame : Int) :
    ∃ rest, e.finish (.enterFrame frame :: c) = .enterFrame frame :: rest ∧
      Arises e (· ∈ Stmt.exprsAll b.stmts) (· ∈ (Stmt.block b.pos b.scope b.stmts).parts) rest := by
  obtain ⟨tail, hTail, hFinish, _⟩ := e.finish_eq (.enterFrame frame :: c)
  refine ⟨c ++ tail, by simpa using hFinish, Arises.append ((h.pieces hCode).arises ?_) ?_⟩
  · intro t ht
    obtain ⟨_, hExprs, _⟩ := Stmt.of_mem_parts ht
    exact fun y hy => hExprs hy
  · rcases hTail with rfl | rfl
    · exact .exit List.mem_cons_self
    · exact .nil

/-- The code of a sound routine refers to the symbols of its body. -/
theorem grounded (h : r.Sound Top round b) (hCode : Stmt.codeAll e b.stmts l = .ok (c, l')) (frame : Int) :
    Grounded e (· ∈ Stmt.notesAll b.stmts) (e.finish (.enterFrame frame :: c)) := by
  obtain ⟨rest, hFinish, hRest⟩ := h.arises hCode frame
  rw [hFinish]
  intro i hi
  obtain rfl | hi := List.mem_cons.mp hi
  · trivial
  · refine (hRest i hi).grounded (fun y hy => ?_) fun t ht => ?_
    · obtain ⟨_, _, hNotes⟩ := @Stmt.of_mem_exprs (.block b.pos b.scope b.stmts) y hy
      exact ⟨h.ready_body.exprs y hy, fun n hn => hNotes hn⟩
    · obtain ⟨_, _, hNotes⟩ := Stmt.of_mem_parts ht
      exact fun n hn => hNotes hn

end Routine.Sound
end body
end Lsl
