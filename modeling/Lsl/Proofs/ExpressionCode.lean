import Lsl.Proofs.Evaluation

/-! The code of expressions against their values. Literals of vectors, rotations and lists that can
be folded take globals at their initial values, so the literals here name no global. -/
namespace Lsl

variable {params : List Ty} {op : Operator} {v : Option Ident} {la ra t : Ty}

variable {x : Expr} {es : List Expr} {cs : Constants}

namespace Expr

open Interpretation

variable {V M : Type} {I : Interpretation V M} {e : Surroundings}

/-- The literals of vectors, rotations and lists in an expression name no global variable. -/
def LocalLiterals (x : Expr) : Prop := ∀ y ∈ x.parts, y.isLiteral = true → ¬ y.MentionsGlobal

theorem component_eval {a : Single} (hI : I.Folds)
    (ih : ∀ w, x.fold cs = some w → w.ty = x.ty ∧ I.eval e x = pure (I.const w))
    (h : (x.fold cs).bind Value.toComponent? = some a) :
    I.convert x.ty .float <$> I.eval e x = pure (I.const (.float a)) := by
  obtain ⟨w, hw, ha⟩ := Option.bind_eq_some_iff.mp h
  obtain ⟨hTy, hEval⟩ := ih w hw
  rw [hEval, map_pure, ← hTy]
  cases w with
  | integer n =>
    cases ha
    exact congrArg pure (hI.toFloat n)
  | float b =>
    cases ha
    rfl
  | _ => cases ha

theorem foldAll_eval {vs : List Value}
    (ih : ∀ x ∈ es, ∀ v, x.fold cs = some v → I.eval e x = pure (I.const v))
    (h : foldAll cs es = some vs) :
    (∀ v ∈ vs, v.ty ≠ .list) ∧ I.evalAll e es = pure (vs.map I.const) := by
  induction es generalizing vs with
  | nil =>
    cases h
    exact ⟨by simp, rfl⟩
  | cons x es ihList =>
    simp only [foldAll, Option.bind_eq_bind, Option.bind_eq_some_iff,
      Option.filter_eq_some_iff] at h
    obtain ⟨v, ⟨hx, hElement⟩, ws, hes, hvs⟩ := h
    cases hvs
    obtain ⟨hRest, hEval⟩ := ihList (fun y hy => ih y (by simp [hy])) hes
    refine ⟨?_, ?_⟩
    · simpa [isElement] using ⟨by simpa [isElement] using hElement, hRest⟩
    · simp [evalAll, ih x (by simp) v hx, hEval]

/-- A constant expression that names no global has the value that it is folded to. -/
theorem fold_eval (hI : I.Folds) (x : Expr) :
    ∀ v, x.WellTyped → ¬ x.MentionsGlobal → x.fold cs = some v →
      v.ty = x.ty ∧ I.eval e x = pure (I.const v) := by
  induction x with
  | int p n t | float p n t | string p n t =>
    intro v hTyped _ h
    cases h
    exact ⟨(hTyped.ruled rfl).symm, rfl⟩
  | paren p x t ih =>
    intro v hTyped hGlobal h
    obtain ⟨⟨_, rfl⟩, hx⟩ := wellTyped_paren.mp hTyped
    exact ih v hx hGlobal h
  | unary p op x t ih =>
    intro v hTyped hGlobal h
    obtain ⟨⟨_, hResult⟩, hx⟩ := wellTyped_unary.mp hTyped
    simp only [fold] at h
    split at h
    · rename_i hOp
      subst hOp
      obtain ⟨w, hw, hv⟩ := Option.bind_eq_some_iff.mp h
      obtain ⟨hTy, hEval⟩ := ih w hx hGlobal hw
      refine ⟨?_, ?_⟩
      · rw [← hTy] at hResult
        cases w <;> cases hv <;> cases hResult <;> rfl
      · rw [eval, hEval, map_pure, ← hTy, hI.neg w v hv]
    · cases h
  | ident v =>
    intro w _ hGlobal h
    simp only [fold] at h
    split at h
    · cases h
    · rename_i c hConstant
      obtain ⟨s, hEntry, hs⟩ := Option.bind_eq_some_iff.mp hConstant
      unfold Constants.constant? at hs
      split at hs
      · rename_i hKind
        exact (hGlobal ⟨s, by simp [notes, hEntry], hKind⟩).elim
      · cases hs
  | vector p x y z t ihx ihy ihz =>
    intro v hTyped hGlobal h
    obtain ⟨⟨rfl, _⟩, hx, hy, hz⟩ := wellTyped_vector.mp hTyped
    obtain ⟨a, hA, h⟩ := Option.bind_eq_some_iff.mp h
    obtain ⟨b, hB, h⟩ := Option.bind_eq_some_iff.mp h
    obtain ⟨c, hC, h⟩ := Option.bind_eq_some_iff.mp h
    cases h
    simp only [mentionsGlobal_vector, not_or] at hGlobal
    have evalX := component_eval hI (fun w => ihx w hx hGlobal.1) hA
    have evalY := component_eval hI (fun w => ihy w hy hGlobal.2.1) hB
    have evalZ := component_eval hI (fun w => ihz w hz hGlobal.2.2) hC
    exact ⟨rfl, by simp only [eval, evalX, evalY, evalZ, pure_bind, hI.vector]⟩
  | rotation p x y z s t ihx ihy ihz ihs =>
    intro v hTyped hGlobal h
    obtain ⟨⟨rfl, _⟩, hx, hy, hz, hs⟩ := wellTyped_rotation.mp hTyped
    obtain ⟨a, hA, h⟩ := Option.bind_eq_some_iff.mp h
    obtain ⟨b, hB, h⟩ := Option.bind_eq_some_iff.mp h
    obtain ⟨c, hC, h⟩ := Option.bind_eq_some_iff.mp h
    obtain ⟨d, hD, h⟩ := Option.bind_eq_some_iff.mp h
    cases h
    simp only [mentionsGlobal_rotation, not_or] at hGlobal
    have evalX := component_eval hI (fun w => ihx w hx hGlobal.1) hA
    have evalY := component_eval hI (fun w => ihy w hy hGlobal.2.1) hB
    have evalZ := component_eval hI (fun w => ihz w hz hGlobal.2.2.1) hC
    have evalS := component_eval hI (fun w => ihs w hs hGlobal.2.2.2) hD
    exact ⟨rfl, by simp only [eval, evalX, evalY, evalZ, evalS, pure_bind, hI.rotation]⟩
  | list p es t ih =>
    intro v hTyped hGlobal h
    obtain ⟨⟨rfl, _⟩, hes⟩ := wellTyped_list.mp hTyped
    obtain ⟨vs, hvs, rfl⟩ := Option.map_eq_some_iff.mp h
    have hEach : ∀ x ∈ es, ∀ v, x.fold cs = some v → I.eval e x = pure (I.const v) := by
      intro x hx v hv
      have hLocal : ¬ x.MentionsGlobal := fun h => hGlobal (mentionsGlobal_list.mpr ⟨x, hx, h⟩)
      exact (ih x hx v (hes x hx) hLocal hv).2
    obtain ⟨hElements, hEval⟩ := foldAll_eval hEach hvs
    exact ⟨rfl, by rw [eval, hEval, map_pure, hI.list vs hElements]⟩
  | _ =>
    intro v _ _ h
    cases h

theorem evalAll_cons (x : Expr) (es : List Expr) (m : M) :
    I.evalAll e (x :: es) m = ((I.eval e x m).1 :: (I.evalAll e es (I.eval e x m).2).1,
      (I.evalAll e es (I.eval e x m).2).2) := rfl

theorem evalArgs_cons (param : Ty) (params : List Ty) (x : Expr) (es : List Expr) (m : M) :
    I.evalArgs e (param :: params) (x :: es) m =
      (((I.convert x.ty param <$> I.eval e x) m).1 ::
        (I.evalArgs e params es ((I.convert x.ty param <$> I.eval e x) m).2).1,
        (I.evalArgs e params es ((I.convert x.ty param <$> I.eval e x) m).2).2) := rfl

theorem length_evalAll (es : List Expr) (m : M) : (I.evalAll e es m).1.length = es.length := by
  induction es generalizing m with
  | nil => rfl
  | cons x es ih => simpa [evalAll_cons] using ih (I.eval e x m).2

theorem length_evalArgs (hFit : argumentsFit params (es.map ty) = true) (m : M) :
    (I.evalArgs e params es m).1.length = params.length := by
  induction es generalizing params m with
  | nil =>
    cases params with
    | nil => rfl
    | cons => cases hFit
  | cons x es ih =>
    cases params with
    | nil => cases hFit
    | cons param params => simpa [evalArgs_cons] using ih (argumentsFit_cons hFit).2 _

theorem codeAll_computes (hNotVoid : ∀ x ∈ es, x.ty ≠ .void)
    (ih : ∀ x ∈ es, ∃ c, x.code e = .ok c ∧ I.Computes c x.ty (I.eval e x)) :
    ∃ c, codeAll e es = .ok c ∧ I.ComputesAll c (I.evalAll e es) := by
  induction es with
  | nil => exact ⟨[], rfl, fun st m => rfl⟩
  | cons x es ihList =>
    obtain ⟨cx, hx, hFirst⟩ := ih x (by simp)
    obtain ⟨ces, hes, hRest⟩ :=
      ihList (fun y hy => hNotVoid y (by simp [hy])) fun y hy => ih y (by simp [hy])
    refine ⟨_, codeAll_cons hx hes, fun st m => ?_⟩
    rw [hFirst.andThen (hNotVoid x (by simp)), hRest]
    simp [evalAll_cons]

/-- Arguments one above the other, each with the type of its parameter. -/
theorem codeArgs_computes (hFit : argumentsFit params (es.map ty) = true)
    (hPresent : ∀ x ∈ es, x.isMissing = false)
    (ih : ∀ x ∈ es, ∃ c, x.code e = .ok c ∧ I.Computes c x.ty (I.eval e x)) :
    ∃ c, codeArgs e params es = .ok c ∧ I.ComputesAll c (I.evalArgs e params es) := by
  induction es generalizing params with
  | nil =>
    cases params with
    | nil => exact ⟨[], by simp [codeArgs], fun st m => rfl⟩
    | cons => cases hFit
  | cons x es ihList =>
    cases params with
    | nil => cases hFit
    | cons param params =>
      obtain ⟨hCoercible, hRestFit⟩ := argumentsFit_cons hFit
      obtain ⟨cx, hx, hFirst⟩ := ih x (by simp)
      obtain ⟨ces, hes, hRest⟩ := ihList hRestFit (fun y hy => hPresent y (by simp [hy]))
        fun y hy => ih y (by simp [hy])
      refine ⟨_, codeArgs_cons hx (hPresent x (by simp)) hes, fun st m => ?_⟩
      rw [(hFirst.convert hCoercible).andThen (Ty.ne_void_of_coercible hCoercible).1, hRest,
        evalArgs_cons]
      simp

theorem Ruled.assigned_ne_void {p : Pos} (h : (assign p op v x la ra t).Ruled) : t ≠ .void := by
  obtain ⟨w, sym, _, _, rfl, ⟨_, hFits⟩ | ⟨_, res, _, _, hFits⟩⟩ := h.assign_cases
  · exact (Ty.ne_void_of_coercible (Ty.coercible_of_assignable hFits)).1
  · exact (Ty.ne_void_of_coercible (Ty.coercible_of_assignable hFits)).1

/-- An assignment leaves the value that it gave the variable, if it is kept. -/
theorem assignCode_computes {p : Pos} {cx : List Instr} (keep : Bool)
    (hRuled : (assign p op v x la ra t).Ruled) (hx : I.Computes cx x.ty (I.eval e x)) :
    ∃ c, assignCode e op v x.ty cx la ra keep = .ok c ∧ ∀ st m, I.exec? c st m =
      some (if keep then .value (I.eval e (assign p op v x la ra t) m).1 :: st else st,
        (I.eval e (assign p op v x la ra t) m).2) := by
  obtain ⟨w, sym, rfl, hEntry, rfl, ⟨rfl, hFits⟩ | ⟨hOp, res, hRes, hTypes, hFits⟩⟩ :=
    hRuled.assign_cases
  · have hCoercible := Ty.coercible_of_assignable hFits
    refine ⟨_, assignCode_none hEntry, fun st m => ?_⟩
    exact (hx.convert hCoercible).store e keep (Ty.ne_void_of_coercible hCoercible).1 hEntry st m
  · obtain ⟨_, hLeft, hRight⟩ := Operator.binaryResult?_isValue hRes
    obtain ⟨hLeftAs, hRightAs⟩ := Operator.promote_coercible hTypes hLeft hRight
    have hBack := Ty.coercible_of_assignable hFits
    have hOld : I.Computes [e.loadInstr w sym] w.ty (I.read e w) := computes_load e hEntry
    have hNew := ((hOld.convert hLeftAs).binary op (hx.convert hRightAs)
      (Ty.ne_void_of_coercible hLeftAs).1 (Ty.ne_void_of_coercible hRightAs).1
      (Ty.ne_void_of_coercible hBack).2).convert hBack
    refine ⟨_, assignCode_op hEntry hOp hRes, fun st m => ?_⟩
    have hStore := hNew.store e keep (Ty.ne_void_of_coercible hBack).1 hEntry st m
    rw [List.append_assoc _ cx]
    refine hStore.trans ?_
    simp only [eval, hOp, if_false, hRes, Option.getD_some]
    rfl

/-- An increment leaves the old or the new value, if it is kept. -/
theorem incDecCode_computes {p : Pos} {d b : Bool} {v : Option Ident} {t : Ty} (keep : Bool)
    (hRuled : (incDec p d b v t).Ruled) :
    ∃ c, incDecCode e d b v keep = .ok c ∧ ∀ st m, I.exec? c st m =
      some (if keep then .value (I.eval e (incDec p d b v t) m).1 :: st else st,
        (I.eval e (incDec p d b v t) m).2) := by
  obtain ⟨w, rfl, ⟨sym, hEntry, _⟩, hTy, rfl⟩ := hRuled
  have hValue : w.ty ≠ .void := by rcases hTy with h | h <;> simp [h]
  have hOld : I.Computes [e.loadInstr w sym] w.ty (I.read e w) := computes_load e hEntry
  have hNew := hOld.binary (if d then .sub else .add) (computes_const (one_ty hTy)) hValue hValue
    hValue
  refine ⟨_, incDecCode_eq hEntry, fun st m => ?_⟩
  cases keep with
  | false => exact hNew.store e false hValue hEntry st m
  | true =>
    cases b with
    | true => exact hNew.store e true hValue hEntry st m
    | false =>
      rw [List.append_assoc, List.append_assoc]
      refine (hOld.andThen hValue _ st m).trans ?_
      refine (hNew.store e false hValue hEntry _ _).trans ?_
      rw [read_state]
      rfl

theorem LocalLiterals.of_mem {y : Expr} (h : x.LocalLiterals)
    (hy : ∀ z ∈ y.parts, z ∈ x.parts := by intro z hz; simp [parts, hz]) : y.LocalLiterals :=
  fun z hz => h z (hy z hz)

/-- A literal without globals that is folded has the value it is folded to. -/
theorem literal_computes {v : Value} (hI : I.Folds) (hTyped : x.WellTyped)
    (hPresent : x.isMissing = false) (hLocal : x.LocalLiterals) (hLiteral : x.isLiteral = true)
    (hFold : x.fold e.constants = some v) : I.Computes [.pushConst v] x.ty (I.eval e x) := by
  obtain ⟨hTy, hEval⟩ :=
    fold_eval hI x v hTyped (hLocal x (mem_parts_self hPresent) hLiteral) hFold
  rw [hEval]
  exact computes_const hTy

/-- The code of a well-typed expression pushes its value. -/
theorem code_computes (hI : I.Folds) (x : Expr) (hPresent : x.isMissing = false)
    (hTyped : x.WellTyped) (hLocal : x.LocalLiterals) :
    ∃ c, x.code e = .ok c ∧ I.Computes c x.ty (I.eval e x) := by
  induction x with
  | missing => cases hPresent
  | int p n t | float p n t | string p n t =>
    exact ⟨_, rfl, computes_const (hTyped.ruled rfl).symm⟩
  | vector p x y z t ihx ihy ihz =>
    obtain ⟨⟨rfl, ⟨px, fx⟩, ⟨py, fy⟩, pz, fz⟩, hx, hy, hz⟩ := wellTyped_vector.mp hTyped
    cases hFold : (vector p x y z .vector).fold e.constants with
    | some v =>
      exact ⟨_, code_vector_folded hFold, literal_computes hI hTyped rfl hLocal rfl hFold⟩
    | none =>
      obtain ⟨cx, hCodeX, computesX⟩ := ihx px hx hLocal.of_mem
      obtain ⟨cy, hCodeY, computesY⟩ := ihy py hy hLocal.of_mem
      obtain ⟨cz, hCodeZ, computesZ⟩ := ihz pz hz hLocal.of_mem
      exact ⟨_, code_vector hFold hCodeX hCodeY hCodeZ px py pz,
        (computesX.convert (Ty.coercible_of_assignable fx)).vector
          (computesY.convert (Ty.coercible_of_assignable fy))
          (computesZ.convert (Ty.coercible_of_assignable fz))⟩
  | rotation p x y z s t ihx ihy ihz ihs =>
    obtain ⟨⟨rfl, ⟨px, fx⟩, ⟨py, fy⟩, ⟨pz, fz⟩, ps, fs⟩, hx, hy, hz, hs⟩ :=
      wellTyped_rotation.mp hTyped
    cases hFold : (rotation p x y z s .rotation).fold e.constants with
    | some v =>
      exact ⟨_, code_rotation_folded hFold, literal_computes hI hTyped rfl hLocal rfl hFold⟩
    | none =>
      obtain ⟨cx, hCodeX, computesX⟩ := ihx px hx hLocal.of_mem
      obtain ⟨cy, hCodeY, computesY⟩ := ihy py hy hLocal.of_mem
      obtain ⟨cz, hCodeZ, computesZ⟩ := ihz pz hz hLocal.of_mem
      obtain ⟨cs, hCodeS, computesS⟩ := ihs ps hs hLocal.of_mem
      exact ⟨_, code_rotation hFold hCodeX hCodeY hCodeZ hCodeS px py pz ps,
        (computesX.convert (Ty.coercible_of_assignable fx)).rotation
          (computesY.convert (Ty.coercible_of_assignable fy))
          (computesZ.convert (Ty.coercible_of_assignable fz))
          (computesS.convert (Ty.coercible_of_assignable fs))⟩
  | list p es t ih =>
    obtain ⟨⟨rfl, hElements⟩, hes⟩ := wellTyped_list.mp hTyped
    cases hFold : (list p es .list).fold e.constants with
    | some v =>
      exact ⟨_, code_list_folded hFold, literal_computes hI hTyped rfl hLocal rfl hFold⟩
    | none =>
      obtain ⟨ces, hCode, hAll⟩ := codeAll_computes (fun x hx => (hElements x hx).2.2)
        fun x hx => ih x hx (hElements x hx).1 (hes x hx)
          (hLocal.of_mem fun y hy => List.mem_cons_of_mem _ (mem_partsAll.mpr ⟨x, hx, hy⟩))
      refine ⟨_, code_list hFold hCode, fun st m => ?_⟩
      have hValues := Held.values?_pushed (I.evalAll e es m).1 st
      rw [length_evalAll] at hValues
      rw [exec?_append, hAll, Option.bind_some, exec?_single]
      simp only [step?, Int.toNat_natCast, hValues, Option.map_some]
      rfl
  | ident v =>
    obtain ⟨sym, hEntry, _⟩ := hTyped.ruled rfl
    exact ⟨_, e.load_eq hEntry, computes_load e hEntry⟩
  | unary p op x t ih =>
    obtain ⟨⟨px, hResult⟩, hx⟩ := wellTyped_unary.mp hTyped
    obtain ⟨cx, hCode, hComputes⟩ := ih px hx hLocal.of_mem
    obtain ⟨hResultValue, hValue⟩ := Operator.unaryResult?_isValue hResult
    exact ⟨_, code_unary hCode px, hComputes.unary hValue (Ty.isValue_iff.mp hResultValue).2⟩
  | binary p op l r la ra t ihl ihr =>
    obtain ⟨⟨pl, pr, hResult, hPromote⟩, hl, hr⟩ := wellTyped_binary.mp hTyped
    obtain ⟨cl, hCodeL, computesL⟩ := ihl pl hl hLocal.of_mem
    obtain ⟨cr, hCodeR, computesR⟩ := ihr pr hr hLocal.of_mem
    obtain ⟨hValue, hLeft, hRight⟩ := Operator.binaryResult?_isValue hResult
    obtain ⟨hLeftAs, hRightAs⟩ := Operator.promote_coercible hPromote hLeft hRight
    exact ⟨_, code_binary hCodeL hCodeR pl pr, (computesL.convert hLeftAs).binary op
      (computesR.convert hRightAs) (Ty.ne_void_of_coercible hLeftAs).1
      (Ty.ne_void_of_coercible hRightAs).1 (Ty.isValue_iff.mp hValue).2⟩
  | assign p op v x la ra t ih =>
    obtain ⟨hRuled, hx⟩ := wellTyped_assign.mp hTyped
    obtain ⟨cx, hCode, hComputes⟩ := ih hRuled.1 hx hLocal.of_mem
    obtain ⟨c, hAssign, hExec⟩ := assignCode_computes true hRuled hComputes
    refine ⟨c, (code_assign hCode hRuled.1).trans hAssign, fun st m => ?_⟩
    rw [ty, Held.push_value hRuled.assigned_ne_void]
    exact hExec st m
  | incDec p d b v t =>
    have hRuled : (incDec p d b v t).Ruled := hTyped.ruled rfl
    obtain ⟨c, hCode, hExec⟩ := @incDecCode_computes V M I e p d b v t true hRuled
    obtain ⟨w, rfl, _, hTy, rfl⟩ := hRuled
    refine ⟨c, hCode, fun st m => ?_⟩
    rw [ty, Held.push_value (by rcases hTy with h | h <;> simp [h])]
    exact hExec st m
  | cast p target x t ih =>
    obtain ⟨⟨px, hCast, rfl⟩, hx⟩ := wellTyped_cast.mp hTyped
    obtain ⟨cx, hCode, hComputes⟩ := ih px hx hLocal.of_mem
    obtain ⟨hSource, hTarget⟩ := Ty.castable_ne_void hCast
    refine ⟨_, code_cast hCode px, fun st m => ?_⟩
    rw [hComputes.andThen hSource, ty, Held.push_value hTarget]
    change _ = some (.value (if x.ty = t then (I.eval e x m).1 else
      I.cast x.ty t (I.eval e x m).1) :: st, (I.eval e x m).2)
    by_cases hSame : x.ty = t
    · simp only [hSame, if_true, exec?_nil]
    · simp only [hSame, if_false, exec?_single]
      rfl
  | call p name args c t ih =>
    obtain ⟨⟨hPresents, sym, rfl, hFit, rfl⟩, hArgs⟩ := wellTyped_call.mp hTyped
    obtain ⟨ca, hCode, hAll⟩ := codeArgs_computes hFit hPresents fun x hx =>
      ih x hx (hPresents x hx) (hArgs x hx)
        (hLocal.of_mem fun y hy => List.mem_cons_of_mem _ (mem_partsAll.mpr ⟨x, hx, hy⟩))
    refine ⟨_, code_call hCode, fun st m => ?_⟩
    have hValues := Held.values?_pushed (I.evalArgs e (sym.params.getD []) args m).1
      (.mark :: .slot :: st)
    rw [length_evalArgs hFit] at hValues
    have hBegin : I.exec? [.callBegin sym.ty] st m = some (.mark :: .slot :: st, m) := rfl
    rw [← List.singleton_append, exec?_append, exec?_append, hBegin, Option.bind_some, hAll,
      Option.bind_some, exec?_single]
    change (Held.values? (sym.params.getD []).length [] _).bind _ = _
    rw [hValues]
    rfl
  | paren p x t ih =>
    obtain ⟨⟨px, rfl⟩, hx⟩ := wellTyped_paren.mp hTyped
    exact ih px hx hLocal.of_mem
  | print p x t ih =>
    obtain ⟨⟨px, hValue, rfl⟩, hx⟩ := wellTyped_print.mp hTyped
    obtain ⟨cx, hCode, hComputes⟩ := ih px hx hLocal.of_mem
    refine ⟨_, code_print hCode px, fun st m => ?_⟩
    rw [hComputes.andThen hValue, exec?_single]
    rfl

/-- An expression that is evaluated for its effects leaves the stack as it was. -/
theorem discard_performs (hI : I.Folds) (x : Expr) (hPresent : x.isMissing = false)
    (hTyped : x.WellTyped) (hLocal : x.LocalLiterals) :
    ∃ c, x.discard e = .ok c ∧ I.Performs c (I.eval e x) := by
  induction x using discard_cases with
  | assign p op v x la ra t =>
    obtain ⟨hRuled, hx⟩ := wellTyped_assign.mp hTyped
    obtain ⟨cx, hCode, hComputes⟩ :=
      code_computes hI x hRuled.1 hx hLocal.of_mem
    obtain ⟨c, hAssign, hExec⟩ := assignCode_computes false hRuled hComputes
    exact ⟨c, (discard_assign hCode hRuled.1).trans hAssign, hExec⟩
  | incDec p d b v t => exact incDecCode_computes false (hTyped.ruled rfl)
  | paren p x t ih =>
    obtain ⟨⟨px, _⟩, hx⟩ := wellTyped_paren.mp hTyped
    exact ih px hx hLocal.of_mem
  | other x hDiscard =>
    obtain ⟨c, hCode, hComputes⟩ := code_computes hI x hPresent hTyped hLocal
    refine ⟨_, hDiscard e c hPresent hCode, fun st m => ?_⟩
    by_cases hVoid : x.ty = .void
    · simp only [hVoid, if_true, List.append_nil, hComputes st m, Held.push_void]
    · simp only [hVoid, if_false]
      rw [hComputes.andThen hVoid, exec?_single]
      rfl

/-- Under every interpretation, the code that pushes an expression computes its value, and the code
that discards it has the same effects. -/
def Evaluates (e : Surroundings) (x : Expr) : Prop :=
  ∀ (V M : Type) (I : Interpretation V M), I.Folds →
    (∃ c, x.code e = .ok c ∧ I.Computes c x.ty (I.eval e x)) ∧
      ∃ c, x.discard e = .ok c ∧ I.Performs c (I.eval e x)

end Expr

/-- The code of a routine is that of its statements, in which the expressions whose literals name no
global have their values. -/
def Routine.Evaluates (outer : Surroundings) (r : Routine) (body : Body) : Prop :=
  ∃ sym b, r.entry = some sym ∧ r.body = some b ∧
    let e := outer.enter r.result sym r.params b
    (∃ l l' frame c, Stmt.codeAll e b.stmts l = .ok (c, l') ∧
      body.code = e.finish (.enterFrame frame :: c)) ∧
    ∀ x ∈ Stmt.exprsAll b.stmts, x.LocalLiterals → x.Evaluates e

theorem Routine.Sound.evaluates {Top : Symbol → Prop} {outer : Surroundings} {round : Nat}
    {r : Routine} {b : Block} {body : Body} (h : r.Sound Top round b) (hBlock : r.body = some b)
    (hEmits : r.Emits outer body) : r.Evaluates outer body := by
  obtain ⟨sym, l, l', c, hEntry, _, _, hCode, rfl⟩ := h.emits hBlock hEmits
  refine ⟨sym, b, hEntry, hBlock, ⟨l, l', _, c, hCode, rfl⟩, fun x hx hLocal V M I hI => ?_⟩
  obtain ⟨hPresent, hTyped⟩ := h.expr hx
  exact ⟨Expr.code_computes hI x hPresent hTyped hLocal,
    Expr.discard_performs hI x hPresent hTyped hLocal⟩

/-- The constants themselves as values: operations on constants that are not folded give `void`. -/
def Interpretation.constants : Interpretation Value Unit where
  const := id
  unary op _ v := if op = .neg then v.neg?.getD .void else .void
  binary _ _ _ _ _ := .void
  cast _ target v := (v.convert? target).getD .void
  vector a b c :=
    match a, b, c with
    | .float x, .float y, .float z => .vector x y z
    | _, _, _ => .void
  rotation a b c d :=
    match a, b, c, d with
    | .float x, .float y, .float z, .float s => .rotation x y z s
    | _, _, _, _ => .void
  list := .list
  load _ t _ _ := .zero t
  save _ _ _ _ m := m
  call c _ m := (.zero c.result, m)
  print _ _ m := m

theorem Interpretation.constants_folds : Interpretation.constants.Folds where
  neg v w h := by simp [constants, h]
  toFloat n := rfl
  vector x y z := rfl
  rotation x y z s := rfl
  list vs _ := by simp [constants]

end Lsl
