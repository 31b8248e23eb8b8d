import Lsl.Proofs.FoldedLiterals

/-! Code under two sets of initial values. What has passed the analyses has code under both. The labels
that are given out do not depend on constants, so the two codes can be compared instruction by
instruction. -/
namespace Lsl

variable {v : Option Ident} {ss : List Stmt}

variable {x : Expr} {es : List Expr}

def Surroundings.initially (e : Surroundings) (cs : Constants) : Surroundings :=
  { e with constants := cs }

namespace Expr

variable {e : Surroundings} {cs : Constants} {xs : List Expr} {cx cx' : List Instr}

/-- A literal that is folded is folded under both sets. -/
theorem literal_twin {v : Value} (h : e.constants.Alike cs)
    (hLiteral : x.isLiteral = true) (hFold : x.fold e.constants = some v) :
    ∃ w, x.fold cs = some w ∧ Twin e.constants cs x.parts [.pushConst v] [.pushConst w] := by
  have hTy := fold_ty h x
  rw [hFold] at hTy
  obtain ⟨w, hw, hTy⟩ := Option.map_eq_some_iff.mp hTy.symm
  have hPresent : x.isMissing = false := by cases x <;> first | rfl | cases hLiteral
  have hMem := mem_parts_self hPresent
  refine ⟨w, hw, .cons (.inr ⟨x, hMem, hLiteral, v, w, hFold, hw, rfl, rfl, hTy.symm⟩) .nil, ?_⟩
  constructor
  · intro hEq
    cases hEq
    exact fold_eq_of_mem hFold hw
  · intro hSame
    have hValue := hSame x hMem hLiteral
    rw [hFold, hw] at hValue
    cases hValue
    rfl

theorem fold_none (h : e.constants.Alike cs) (hFold : x.fold e.constants = none) : x.fold cs = none := by
  have hTy := fold_ty h x
  rw [hFold] at hTy
  exact Option.map_eq_none_iff.mp hTy.symm

theorem codeAll_twin (ih : ∀ x ∈ es, ∃ c c', x.code e = .ok c ∧
    x.code (e.initially cs) = .ok c' ∧ Twin e.constants cs x.parts c c') :
    ∃ c c', codeAll e es = .ok c ∧ codeAll (e.initially cs) es = .ok c' ∧
      Twin e.constants cs (partsAll es) c c' := by
  induction es with
  | nil => exact ⟨[], [], rfl, rfl, Twin.same []⟩
  | cons x es ihList =>
    obtain ⟨c, c', hc, hc', hTwin⟩ := ih x (by simp)
    obtain ⟨d, d', hd, hd', hRest⟩ := ihList fun y hy => ih y (by simp [hy])
    exact ⟨_, _, codeAll_cons hc hd, codeAll_cons hc' hd', hTwin.append hRest⟩

theorem codeArgs_twin {params : List Ty}
    (hFit : argumentsFit params (es.map ty) = true) (hPresent : ∀ x ∈ es, x.isMissing = false)
    (ih : ∀ x ∈ es, ∃ c c', x.code e = .ok c ∧ x.code (e.initially cs) = .ok c' ∧
      Twin e.constants cs x.parts c c') :
    ∃ c c', codeArgs e params es = .ok c ∧ codeArgs (e.initially cs) params es = .ok c' ∧
      Twin e.constants cs (partsAll es) c c' := by
  induction es generalizing params with
  | nil => exact ⟨[], [], by simp [codeArgs], by simp [codeArgs], Twin.same []⟩
  | cons x es ihList =>
    cases params with
    | nil => cases hFit
    | cons param params =>
      obtain ⟨c, c', hc, hc', hTwin⟩ := ih x (by simp)
      obtain ⟨d, d', hd, hd', hRest⟩ := ihList (argumentsFit_cons hFit).2
        (fun y hy => hPresent y (by simp [hy])) fun y hy => ih y (by simp [hy])
      exact ⟨_, _, codeArgs_cons hc (hPresent x (by simp)) hd,
        codeArgs_cons hc' (hPresent x (by simp)) hd', (hTwin.before _).append hRest⟩

theorem assignCode_twin {p : Pos} {op : Operator} {la ra t : Ty} (keep : Bool)
    (hRuled : (assign p op v x la ra t).Ruled) (hTwin : Twin e.constants cs x.parts cx cx') :
    ∃ c c', assignCode e op v x.ty cx la ra keep = .ok c ∧
      assignCode (e.initially cs) op v x.ty cx' la ra keep = .ok c' ∧
      Twin e.constants cs (assign p op v x la ra t).parts c c' := by
  replace hTwin : Twin e.constants cs (assign p op v x la ra t).parts cx cx' :=
    (hTwin.target v).other rfl
  obtain ⟨w, sym, rfl, hEntry, _, ⟨rfl, _⟩ | ⟨hOp, res, hRes, _⟩⟩ := hRuled.assign_cases
  · exact ⟨_, _, assignCode_none hEntry, assignCode_none hEntry, (hTwin.before _).before _⟩
  · exact ⟨_, _, assignCode_op hEntry hOp hRes, assignCode_op hEntry hOp hRes,
      ((((hTwin.after _).before _).before _).before _).before _⟩

theorem incDecCode_twin {p : Pos} {d b : Bool} {t : Ty} (keep : Bool) (hRuled : (incDec p d b v t).Ruled) :
    ∃ c, incDecCode e d b v keep = .ok c ∧ incDecCode (e.initially cs) d b v keep = .ok c ∧
      Twin e.constants cs (incDec p d b v t).parts c c := by
  obtain ⟨w, rfl, ⟨sym, hEntry, _⟩, _⟩ := hRuled
  refine ⟨_, incDecCode_eq hEntry, incDecCode_eq hEntry, ?_⟩
  have hTarget := fun c => (@Twin.same e.constants cs c).target (some w)
  exact (hTarget _).other rfl

/-- The code of a well-typed expression under two sets of initial values. -/
theorem code_twin (h : e.constants.Alike cs) (x : Expr) (hTyped : x.WellTyped) :
    ∃ c c', x.code e = .ok c ∧ x.code (e.initially cs) = .ok c' ∧
      Twin e.constants cs x.parts c c' := by
  induction x with
  | missing => exact ⟨[], [], rfl, rfl, Twin.same []⟩
  | int p n t | float p n t | string p n t =>
    exact ⟨_, _, rfl, rfl, (Twin.same _).other rfl⟩
  | vector p x y z t ihx ihy ihz =>
    obtain ⟨⟨_, px, py, pz⟩, hx, hy, hz⟩ := wellTyped_vector.mp hTyped
    cases hFold : (vector p x y z t).fold e.constants with
    | some v =>
      obtain ⟨w, hFold', hTwin⟩ := literal_twin h rfl hFold
      exact ⟨_, _, code_vector_folded hFold, code_vector_folded hFold', hTwin⟩
    | none =>
      obtain ⟨cx, cx', hx, hx', twinX⟩ := ihx hx
      obtain ⟨cy, cy', hy, hy', twinY⟩ := ihy hy
      obtain ⟨cz, cz', hz, hz', twinZ⟩ := ihz hz
      refine ⟨_, _, code_vector hFold hx hy hz px.1 py.1 pz.1,
        code_vector (fold_none h hFold) hx' hy' hz' px.1 py.1 pz.1, ?_⟩
      exact ((((twinX.before _).append (twinY.before _)).append (twinZ.before _)).before _).cons
        fun _ => hFold.trans (fold_none h hFold).symm
  | rotation p x y z s t ihx ihy ihz ihs =>
    obtain ⟨⟨_, px, py, pz, ps⟩, hx, hy, hz, hs⟩ := wellTyped_rotation.mp hTyped
    cases hFold : (rotation p x y z s t).fold e.constants with
    | some v =>
      obtain ⟨w, hFold', hTwin⟩ := literal_twin h rfl hFold
      exact ⟨_, _, code_rotation_folded hFold, code_rotation_folded hFold', hTwin⟩
    | none =>
      obtain ⟨cx, cx', hx, hx', twinX⟩ := ihx hx
      obtain ⟨cy, cy', hy, hy', twinY⟩ := ihy hy
      obtain ⟨cz, cz', hz, hz', twinZ⟩ := ihz hz
      obtain ⟨ct, ct', hs, hs', twinS⟩ := ihs hs
      refine ⟨_, _, code_rotation hFold hx hy hz hs px.1 py.1 pz.1 ps.1,
        code_rotation (fold_none h hFold) hx' hy' hz' hs' px.1 py.1 pz.1 ps.1, ?_⟩
      exact (((((twinX.before _).append (twinY.before _)).append (twinZ.before _)).append
        (twinS.before _)).before _).cons fun _ => hFold.trans (fold_none h hFold).symm
  | list p es t ih =>
    obtain ⟨_, hes⟩ := wellTyped_list.mp hTyped
    cases hFold : (list p es t).fold e.constants with
    | some v =>
      obtain ⟨w, hFold', hTwin⟩ := literal_twin h rfl hFold
      exact ⟨_, _, code_list_folded hFold, code_list_folded hFold', hTwin⟩
    | none =>
      obtain ⟨c, c', hc, hc', hTwin⟩ := codeAll_twin fun x hx => ih x hx (hes x hx)
      exact ⟨_, _, code_list hFold hc, code_list (fold_none h hFold) hc',
        (hTwin.before _).cons fun _ => hFold.trans (fold_none h hFold).symm⟩
  | ident v =>
    obtain ⟨sym, hEntry, _⟩ := hTyped.ruled rfl
    exact ⟨_, _, e.load_eq hEntry, (e.initially cs).load_eq hEntry,
      (Twin.same _).other rfl⟩
  | unary p op x t ih =>
    obtain ⟨⟨px, _⟩, hx⟩ := wellTyped_unary.mp hTyped
    obtain ⟨c, c', hc, hc', hTwin⟩ := ih hx
    exact ⟨_, _, code_unary hc px, code_unary hc' px,
      (hTwin.before _).other rfl⟩
  | binary p op l r la ra t ihl ihr =>
    obtain ⟨⟨pl, pr, _⟩, hl, hr⟩ := wellTyped_binary.mp hTyped
    obtain ⟨cl, cl', hl, hl', twinL⟩ := ihl hl
    obtain ⟨cr, cr', hr, hr', twinR⟩ := ihr hr
    exact ⟨_, _, code_binary hl hr pl pr, code_binary hl' hr' pl pr,
      (((twinL.before _).append (twinR.before _)).before _).other rfl⟩
  | assign p op v x la ra t ih =>
    obtain ⟨hRuled, hx⟩ := wellTyped_assign.mp hTyped
    obtain ⟨cx, cx', hx, hx', hTwin⟩ := ih hx
    obtain ⟨c, c', hc, hc', hTwin⟩ := assignCode_twin true hRuled hTwin
    exact ⟨c, c', (code_assign hx hRuled.1).trans hc, (code_assign hx' hRuled.1).trans hc', hTwin⟩
  | incDec p d b v t =>
    obtain ⟨c, hc, hc', hTwin⟩ := incDecCode_twin true (hTyped.ruled rfl)
    exact ⟨c, c, hc, hc', hTwin⟩
  | cast p target x t ih =>
    obtain ⟨⟨px, _⟩, hx⟩ := wellTyped_cast.mp hTyped
    obtain ⟨c, c', hc, hc', hTwin⟩ := ih hx
    exact ⟨_, _, code_cast hc px, code_cast hc' px,
      (hTwin.before _).other rfl⟩
  | call p name args s t ih =>
    obtain ⟨⟨hPresent, sym, rfl, hFit, _⟩, hArgs⟩ := wellTyped_call.mp hTyped
    obtain ⟨c, c', hc, hc', hTwin⟩ :=
      codeArgs_twin hFit hPresent fun x hx => ih x hx (hArgs x hx)
    exact ⟨_, _, code_call hc, code_call hc',
      (((hTwin.after [.callBegin sym.ty]).before _)).other rfl⟩
  | paren p x t ih =>
    obtain ⟨c, c', hc, hc', hTwin⟩ := ih (wellTyped_paren.mp hTyped).2
    exact ⟨c, c', hc, hc', hTwin.other rfl⟩
  | print p x t ih =>
    obtain ⟨⟨px, _⟩, hx⟩ := wellTyped_print.mp hTyped
    obtain ⟨c, c', hc, hc', hTwin⟩ := ih hx
    exact ⟨_, _, code_print hc px, code_print hc' px,
      (hTwin.before _).other rfl⟩

theorem discard_twin (h : e.constants.Alike cs) (x : Expr) (hPresent : x.isMissing = false)
    (hTyped : x.WellTyped) :
    ∃ c c', x.discard e = .ok c ∧ x.discard (e.initially cs) = .ok c' ∧
      Twin e.constants cs x.parts c c' := by
  induction x using discard_cases with
  | assign p op v x la ra t =>
    obtain ⟨hRuled, hx⟩ := wellTyped_assign.mp hTyped
    obtain ⟨cx, cx', hx, hx', hTwin⟩ := code_twin h x hx
    obtain ⟨c, c', hc, hc', hTwin⟩ := assignCode_twin false hRuled hTwin
    exact ⟨c, c', (discard_assign hx hRuled.1).trans hc,
      (discard_assign hx' hRuled.1).trans hc', hTwin⟩
  | incDec p d b v t =>
    obtain ⟨c, hc, hc', hTwin⟩ := incDecCode_twin false (hTyped.ruled rfl)
    exact ⟨c, c, hc, hc', hTwin⟩
  | paren p x t ih =>
    obtain ⟨⟨px, _⟩, hx⟩ := wellTyped_paren.mp hTyped
    obtain ⟨c, c', hc, hc', hTwin⟩ := ih px hx
    exact ⟨c, c', hc, hc', hTwin.other rfl⟩
  | other x hDiscard =>
    obtain ⟨c, c', hc, hc', hTwin⟩ := code_twin h x hTyped
    exact ⟨_, _, hDiscard _ c hPresent hc, hDiscard _ c' hPresent hc', hTwin.before _⟩

theorem discardAll_twin (h : e.constants.Alike cs) (hes : ∀ x ∈ es, x.isMissing = false ∧ x.WellTyped) :
    ∃ c c', discardAll e es = .ok c ∧ discardAll (e.initially cs) es = .ok c' ∧
      Twin e.constants cs (partsAll es) c c' := by
  induction es with
  | nil => exact ⟨[], [], rfl, rfl, Twin.same []⟩
  | cons x es ih =>
    obtain ⟨px, hx⟩ := hes x (by simp)
    obtain ⟨c, c', hc, hc', hTwin⟩ := discard_twin h x px hx
    obtain ⟨d, d', hd, hd', hRest⟩ := ih fun y hy => hes y (by simp [hy])
    exact ⟨_, _, discardAll_cons hc hd, discardAll_cons hc' hd', hTwin.append hRest⟩

/-- A well-typed expression can be emitted. -/
theorem code_succeeds (e : Surroundings) (x : Expr) (h : x.WellTyped) : ∃ c, x.code e = .ok c := by
  obtain ⟨c, _, hc, _⟩ := @code_twin e e.constants (fun _ => rfl) x h
  exact ⟨c, hc⟩

end Expr

namespace Stmt

mutual

/-- The expressions that the code of a statement evaluates, and their parts. A body without a result
does not evaluate what it returns. -/
def evaluated (result : Ty) : Stmt → List Expr
  | missing | jump .. | label .. | goto .. | empty _ => []
  | block _ _ ss => evaluatedAll result ss
  | expr _ x => x.parts
  | decl _ _ _ init _ => init.parts
  | ifThen _ c _ t _ e => c.parts ++ evaluated result t ++ evaluated result e
  | .while _ c _ b => c.parts ++ evaluated result b
  | doWhile _ _ b c => evaluated result b ++ c.parts
  | .for _ init c step _ b =>
    Expr.partsAll init ++ c.parts ++ evaluated result b ++ Expr.partsAll step
  | ret _ v => if result = .void then [] else v.parts

def evaluatedAll (result : Ty) : List Stmt → List Expr
  | [] => []
  | s :: ss => evaluated result s ++ evaluatedAll result ss

end

variable {e : Surroundings} {cs : Constants}

theorem branchNot_twin (h : e.constants.Alike cs) (hPresent : x.isMissing = false)
    (hTyped : x.WellTyped) (n : Label) :
    ∃ c c', branchNot e x n = .ok c ∧ branchNot (e.initially cs) x n = .ok c' ∧
      Twin e.constants cs x.parts c c' := by
  obtain ⟨c, c', hc, hc', hTwin⟩ := Expr.code_twin h x hTyped
  exact ⟨_, _, branchNot_eq hPresent hc n, branchNot_eq hPresent hc' n, hTwin.before _⟩

theorem loopTest_twin (h : e.constants.Alike cs) (hTyped : x.WellTyped) (n : Label) :
    ∃ c c', loopTest e x n = .ok c ∧ loopTest (e.initially cs) x n = .ok c' ∧
      Twin e.constants cs x.parts c c' := by
  rcases x.missing_or_present with rfl | hPresent
  · exact ⟨[], [], rfl, rfl, Twin.same []⟩
  · rw [loopTest_eq hPresent, loopTest_eq hPresent]
    exact branchNot_twin h hPresent hTyped n

theorem initCode_twin (h : e.constants.Alike cs) (hTyped : x.WellTyped) (ty : Ty) :
    ∃ c c', initCode e ty x = .ok c ∧ initCode (e.initially cs) ty x = .ok c' ∧
      Twin e.constants cs x.parts c c' := by
  rcases x.missing_or_present with rfl | hPresent
  · exact ⟨_, _, rfl, rfl, Twin.same _⟩
  · obtain ⟨c, c', hc, hc', hTwin⟩ := Expr.code_twin h x hTyped
    exact ⟨_, _, initCode_eq hPresent hc, initCode_eq hPresent hc', hTwin.before _⟩

theorem resultCode_twin (h : e.constants.Alike cs) {p : Pos} {x : Expr} (hTyped : x.WellTyped) :
    ∃ c c', resultCode e x = .ok c ∧ resultCode (e.initially cs) x = .ok c' ∧
      Twin e.constants cs (evaluated e.result (.ret p x)) c c' := by
  by_cases hResult : e.result = .void
  · rw [evaluated, if_pos hResult]
    exact ⟨[], [], resultCode_nil (Or.inr hResult), resultCode_nil (Or.inr hResult), Twin.same []⟩
  · rw [evaluated, if_neg hResult]
    rcases x.missing_or_present with rfl | hPresent
    · exact ⟨[], [], rfl, rfl, Twin.same []⟩
    · obtain ⟨c, c', hc, hc', hTwin⟩ := Expr.code_twin h x hTyped
      exact ⟨_, _, resultCode_eq hPresent hResult hc, resultCode_eq hPresent hResult hc',
        (hTwin.before _).before _⟩

def TwinRun (e : Surroundings) (cs : Constants) (s : Stmt) : Prop :=
  ∀ l, ∃ c c' l', code e s l = .ok (c, l') ∧ code (e.initially cs) s l = .ok (c', l') ∧
    Twin e.constants cs (s.evaluated e.result) c c'

theorem codeAll_twin (ih : ∀ s ∈ ss, TwinRun e cs s) (l : Labels) :
    ∃ c c' l', codeAll e ss l = .ok (c, l') ∧ codeAll (e.initially cs) ss l = .ok (c', l') ∧
      Twin e.constants cs (evaluatedAll e.result ss) c c' := by
  induction ss generalizing l with
  | nil => exact ⟨[], [], l, rfl, rfl, Twin.same []⟩
  | cons s ss ihList =>
    obtain ⟨c, c', l₁, hc, hc', hTwin⟩ := ih s (by simp) l
    obtain ⟨d, d', l', hd, hd', hRest⟩ := ihList (fun t ht => ih t (by simp [ht])) l₁
    exact ⟨_, _, l', codeAll_cons.mpr ⟨c, d, l₁, hc, hd, rfl⟩,
      codeAll_cons.mpr ⟨c', d', l₁, hc', hd', rfl⟩, hTwin.append hRest⟩

theorem code_twin {result : Ty} (h : e.constants.Alike cs) (s : Stmt) (hReady : Ready result s) :
    TwinRun e cs s := by
  induction s with
  | missing | empty p => exact fun l => ⟨[], [], l, rfl, rfl, Twin.same []⟩
  | block p scope ss ih =>
    intro l
    obtain ⟨c, c', l', hc, hc', hTwin⟩ := codeAll_twin (fun s hs => ih s hs (hReady.block s hs)) l
    exact ⟨c, c', l', code_block.mpr hc, code_block.mpr hc', hTwin⟩
  | expr p x =>
    intro l
    obtain ⟨hPresent, hTyped⟩ := hReady.expr
    obtain ⟨c, c', hc, hc', hTwin⟩ := Expr.discard_twin h x hPresent hTyped
    exact ⟨c, c', l, code_expr.mpr ⟨hc, rfl⟩, code_expr.mpr ⟨hc', rfl⟩, hTwin⟩
  | decl p name ty x entry =>
    intro l
    obtain ⟨hTyped, _, sym, hEntry⟩ := hReady.decl
    obtain ⟨c, c', hc, hc', hTwin⟩ := initCode_twin h hTyped ty
    exact ⟨_, _, l, code_decl.mpr ⟨sym, c, hEntry, hc, rfl, rfl⟩,
      code_decl.mpr ⟨sym, c', hEntry, hc', rfl, rfl⟩, hTwin.before _⟩
  | ifThen p x ts t es f iht ihf =>
    intro l
    obtain ⟨hPresent, _, hTyped, hThen, hElse⟩ := hReady.ifThen
    obtain ⟨test, test', hTest, hTest', twinTest⟩ := branchNot_twin h hPresent hTyped (l.last + 1)
    obtain ⟨c, c', l₁, hc, hc', twinThen⟩ := iht hThen l.next
    obtain rfl | hMissing := f.missing_or_present
    · refine ⟨_, _, l₁, code_ifThen_missing.mpr ⟨test, c, hTest, hc, rfl⟩,
        code_ifThen_missing.mpr ⟨test', c', hTest', hc', rfl⟩, ?_⟩
      rw [evaluated, evaluated, List.append_nil]
      exact (twinTest.append twinThen).before _
    · obtain ⟨d, d', l₂, hd, hd', twinElse⟩ := ihf hElse l₁.next
      exact ⟨_, _, l₂, (code_ifThen hMissing).mpr ⟨test, c, d, l₁, hTest, hc, hd, rfl⟩,
        (code_ifThen hMissing).mpr ⟨test', c', d', l₁, hTest', hc', hd', rfl⟩,
        (((twinTest.append twinThen).before _).append twinElse).before _⟩
  | whileLoop p x bs b ih =>
    intro l
    obtain ⟨hPresent, _, hTyped, hBody⟩ := hReady.whileLoop
    obtain ⟨test, test', hTest, hTest', twinTest⟩ :=
      branchNot_twin h hPresent hTyped (l.next.last + 1)
    obtain ⟨c, c', l₁, hc, hc', twinBody⟩ := ih hBody l.next.next
    exact ⟨_, _, l₁, code_while.mpr ⟨test, c, hTest, hc, rfl⟩,
      code_while.mpr ⟨test', c', hTest', hc', rfl⟩,
      ((twinTest.after [.label (l.last + 1)]).append twinBody).before _⟩
  | doWhile p bs b x ih =>
    intro l
    obtain ⟨hPresent, _, hTyped, hBody⟩ := hReady.doWhile
    obtain ⟨test, test', hTest, hTest', twinTest⟩ := Expr.code_twin h x hTyped
    obtain ⟨c, c', l₁, hc, hc', twinBody⟩ := ih hBody l.next
    exact ⟨_, _, l₁, (code_doWhile hPresent).mpr ⟨c, test, hc, hTest, rfl⟩,
      (code_doWhile hPresent).mpr ⟨c', test', hc', hTest', rfl⟩,
      ((twinBody.after [.label (l.last + 1)]).append twinTest).before _⟩
  | forLoop p init x step bs b ih =>
    intro l
    obtain ⟨hInit, hStep, hTyped, _, hBody⟩ := hReady.forLoop
    obtain ⟨first, first', hFirst, hFirst', twinFirst⟩ := Expr.discardAll_twin h hInit
    obtain ⟨last, last', hLast, hLast', twinLast⟩ := Expr.discardAll_twin h hStep
    obtain ⟨test, test', hTest, hTest', twinTest⟩ := loopTest_twin h hTyped (l.next.last + 1)
    obtain ⟨c, c', l₁, hc, hc', twinBody⟩ := ih hBody l.next.next
    exact ⟨_, _, l₁, code_for.mpr ⟨first, test, c, last, hFirst, hTest, hc, hLast, rfl⟩,
      code_for.mpr ⟨first', test', c', last', hFirst', hTest', hc', hLast', rfl⟩,
      ((((twinFirst.before _).append twinTest).append twinBody).append twinLast).before _⟩
  | jump p name entry =>
    intro l
    obtain ⟨sym, hEntry⟩ := hReady.jump
    exact ⟨_, _, _, code_jump.mpr ⟨sym, hEntry, rfl, rfl⟩, code_jump.mpr ⟨sym, hEntry, rfl, rfl⟩,
      Twin.same _⟩
  | label p name entry =>
    intro l
    obtain ⟨sym, hEntry⟩ := hReady.label
    exact ⟨_, _, _, code_label.mpr ⟨sym, hEntry, rfl, rfl⟩,
      code_label.mpr ⟨sym, hEntry, rfl, rfl⟩, Twin.same _⟩
  | ret p x =>
    intro l
    obtain ⟨c, c', hc, hc', hTwin⟩ := @resultCode_twin e cs h p x hReady.ret.1
    exact ⟨_, _, l, code_ret.mpr ⟨c, hc, rfl, rfl⟩, code_ret.mpr ⟨c', hc', rfl, rfl⟩,
      hTwin.before _⟩
  | goto p name entry =>
    intro l
    obtain ⟨sym, hEntry⟩ := hReady.goto
    exact ⟨_, _, l, code_goto.mpr ⟨sym, hEntry, rfl, rfl⟩, code_goto.mpr ⟨sym, hEntry, rfl, rfl⟩,
      Twin.same _⟩

/-- Statements that are ready can be emitted, whatever labels were given out before. -/
theorem codeAll_succeeds {result : Ty} (e : Surroundings) (h : ∀ s ∈ ss, Ready result s) (l : Labels) :
    ∃ r, codeAll e ss l = .ok r := by
  have hRuns := fun s hs => @code_twin e e.constants result (fun _ => rfl) s (h s hs)
  obtain ⟨c, _, l', hc, _⟩ := codeAll_twin hRuns l
  exact ⟨(c, l'), hc⟩

end Stmt
end Lsl
