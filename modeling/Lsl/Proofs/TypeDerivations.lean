import Lsl.Proofs.ConstantTypes
import Lsl.Proofs.LaterAnalyses

/-! Derivations of types. A derivation is a script whose noted types obey the rules at every node, so the
rules say what the type analysis accepts without saying how it looks. The analysis leaves a derivation as it
is and finds nothing in it; since it disregards the types that are noted before, a script has one
derivation at most, and that is what the analysis makes of it. -/
namespace Lsl

open List

variable {es : List Expr} {x : Expr} {result : Ty}

theorem Ident.infer_self {v : Ident} (h : v.Ruled) : v.infer = .ok (v, []) := by
  obtain ⟨p, name, member, entry, ty⟩ := v
  obtain ⟨s, hEntry, hRule⟩ := h
  simp only at hEntry hRule
  subst hEntry
  obtain ⟨hWhole, rfl⟩ | ⟨hPart, hMember, rfl⟩ := hRule
  · simp [infer, Fault.need, hWhole]
  · simp [infer, Fault.need, hPart, hMember, unlessHolds]

namespace Expr

theorem inferAll_self (h : ∀ e ∈ es, e.infer = .ok (e, [])) :
    inferAll es = .ok (es, []) := by
  induction es with
  | nil => rfl
  | cons e es ih =>
    rw [forall_mem_cons] at h
    simp only [inferAll, h.1, ih h.2, ok_bind]
    rfl

theorem inferElements_self (h : ∀ e ∈ es, e.infer = .ok (e, [])) (hElements : ∀ e ∈ es, e.IsElement) :
    inferElements es = .ok (es, []) := by
  induction es with
  | nil => rfl
  | cons e es ih =>
    rw [forall_mem_cons] at h hElements
    obtain ⟨⟨_, hList, hVoid⟩, hRest⟩ := hElements
    have hNone : e.elementProblems = [] := by
      unfold elementProblems
      split <;> simp_all
    simp only [inferElements, h.1, ih h.2 hRest, hNone, ok_bind]
    rfl

theorem componentProblems_self (h : x.IsComponent) : x.componentProblems = [] :=
  unlessHolds_eq_nil.mpr h.2

/-- The type analysis leaves a well-typed expression as it is. -/
theorem infer_self (x : Expr) (hTyped : x.WellTyped) (hPresent : x.isMissing = false) :
    x.infer = .ok (x, []) := by
  induction x with
  | missing => cases hPresent
  | int p n t =>
    obtain rfl : t = .integer := hTyped.ruled rfl
    rfl
  | float p n t =>
    obtain rfl : t = .float := hTyped.ruled rfl
    rfl
  | string p n t =>
    obtain rfl : t = .string := hTyped.ruled rfl
    rfl
  | vector p x y z t ihx ihy ihz =>
    obtain ⟨⟨rfl, hcx, hcy, hcz⟩, hx, hy, hz⟩ := wellTyped_vector.mp hTyped
    simp only [infer, ihx hx hcx.1, ihy hy hcy.1, ihz hz hcz.1, ok_bind, componentProblems_self hcx,
      componentProblems_self hcy, componentProblems_self hcz]
    rfl
  | rotation p x y z s t ihx ihy ihz ihs =>
    obtain ⟨⟨rfl, hcx, hcy, hcz, hcs⟩, hx, hy, hz, hs⟩ := wellTyped_rotation.mp hTyped
    simp only [infer, ihx hx hcx.1, ihy hy hcy.1, ihz hz hcz.1, ihs hs hcs.1, ok_bind,
      componentProblems_self hcx, componentProblems_self hcy, componentProblems_self hcz,
      componentProblems_self hcs]
    rfl
  | list p es t ih =>
    obtain ⟨⟨rfl, hElements⟩, hes⟩ := wellTyped_list.mp hTyped
    have hEach : ∀ e ∈ es, e.infer = .ok (e, []) := fun e he => ih e he (hes e he) (hElements e he).1
    simp only [infer, inferElements_self hEach hElements, ok_bind]
    rfl
  | ident v =>
    simp only [infer, Ident.infer_self (hTyped.ruled rfl), ok_bind]
    rfl
  | unary p op x t ih =>
    obtain ⟨⟨hSome, hResult⟩, hx⟩ := wellTyped_unary.mp hTyped
    simp only [infer, ih hx hSome, hResult, ok_bind]
    rfl
  | binary p op l r la ra t ihl ihr =>
    obtain ⟨⟨hLeft, hRight, hResult, hSides⟩, hl, hr⟩ := wellTyped_binary.mp hTyped
    simp only [infer, ihl hl hLeft, ihr hr hRight, hResult, hSides, ok_bind]
    rfl
  | assign p op v x la ra t ih =>
    obtain ⟨⟨hSome, w, rfl, hw, hFits, hSides, rfl⟩, hx⟩ := wellTyped_assign.mp hTyped
    simp only [infer, Fault.need, Ident.infer_self hw, ih hx hSome, hFits, hSides, ok_bind]
    rfl
  | incDec p d b v t =>
    obtain ⟨w, rfl, hw, hNumber, rfl⟩ := hTyped.ruled rfl
    have hHolds : (w.ty == .integer || w.ty == .float) = true := by simpa using hNumber
    simp only [infer, Fault.need, Ident.infer_self hw, hHolds, ok_bind]
    rfl
  | cast p target x t ih =>
    obtain ⟨⟨hSome, hCast, rfl⟩, hx⟩ := wellTyped_cast.mp hTyped
    simp only [infer, ih hx hSome, hCast, ok_bind]
    rfl
  | call p name es c t ih =>
    obtain ⟨⟨hSome, s, rfl, hFits, rfl⟩, hes⟩ := wellTyped_call.mp hTyped
    have hArgs : inferAll es = .ok (es, []) := inferAll_self fun e he => ih e he (hes e he) (hSome e he)
    simp only [infer, hArgs, Fault.need, hFits, ok_bind]
    rfl
  | paren p x t ih =>
    obtain ⟨⟨hSome, rfl⟩, hx⟩ := wellTyped_paren.mp hTyped
    simp only [infer, ih hx hSome, ok_bind]
    rfl
  | print p x t ih =>
    obtain ⟨⟨hSome, hVoid, rfl⟩, hx⟩ := wellTyped_print.mp hTyped
    simp only [infer, ih hx hSome, bne_iff_ne.mpr hVoid, ok_bind]
    rfl

theorem inferOptional_self (h : x.WellTyped) : x.inferOptional = .ok (x, []) := by
  unfold inferOptional
  split
  · rfl
  · next hPresent => exact infer_self x h (by cases x <;> simp_all [isMissing])

theorem inferCondition_self (h : x.WellTyped) (hPresent : x.isMissing = false) (hVoid : x.ty ≠ .void) :
    x.inferCondition false = .ok (x, []) := by
  simp only [inferCondition, infer_self x h hPresent, bne_iff_ne.mpr hVoid, ok_bind]
  rfl

theorem inferOptionalCondition_self (h : x.WellTyped) (hVoid : x.isMissing = true ∨ x.ty ≠ .void) :
    x.inferOptionalCondition false = .ok (x, []) := by
  unfold inferOptionalCondition
  split
  · rfl
  · have hPresent : x.isMissing = false := by cases x <;> simp_all [isMissing]
    exact inferCondition_self h hPresent (hVoid.resolve_left (by simp [hPresent]))

end Expr

namespace Stmt

theorem checkAll_self {ss : List Stmt} (h : ∀ s ∈ ss, s.check result false = .ok (s, [])) :
    checkAll result false ss = .ok (ss, []) := by
  induction ss with
  | nil => rfl
  | cons s ss ih =>
    rw [forall_mem_cons] at h
    have hRest : checkAll result (!([] : List Diagnostic).isEmpty) ss = .ok (ss, []) := ih h.2
    simp only [checkAll, h.1, ok_bind, hRest, Bool.false_eq_true, if_false]
    rfl

/-- The type analysis leaves a statement in which the rules hold as it is. -/
theorem check_self (s : Stmt) (hExprs : ∀ x ∈ s.exprs, x.Ruled)
    (hStmts : ∀ t ∈ s.parts, t.Ruled result) :
    s.check result false = .ok (s, []) := by
  induction s with
  | missing | jump | label | goto | empty => rfl
  | block p scope ss ih =>
    have hEach : ∀ s ∈ ss, s.check result false = .ok (s, []) := fun s hs =>
      ih s hs (fun x hx => hExprs x (mem_exprsAll.mpr ⟨s, hs, hx⟩))
        fun t ht => hStmts t (mem_cons_of_mem _ (mem_partsAll.mpr ⟨s, hs, ht⟩))
    simp only [check, checkAll_self hEach, ok_bind]
    rfl
  | expr p x =>
    have hPresent : x.isMissing = false := hStmts (.expr p x) (by simp [parts])
    simp only [check, Expr.infer_self x hExprs hPresent, ok_bind]
    rfl
  | decl p name ty init entry =>
    have hFits : init.isMissing = true ∨ Ty.coercible ty init.ty = true :=
      hStmts (.decl p name ty init entry) (by simp [parts])
    have hNone : declProblems p name ty init = [] := by
      cases init <;> simp_all [declProblems, Expr.isMissing]
    simp only [check, Expr.inferOptional_self hExprs, hNone, ok_bind]
    rfl
  | ret p v =>
    have hFits : v.isMissing = true ∨ result = .void ∨ Ty.assignable result v.ty = true :=
      hStmts (.ret p v) (by simp [parts])
    have hNone : returnProblems p result v = [] := by
      cases v <;> simp_all [returnProblems, Expr.isMissing]
    simp only [check, Expr.inferOptional_self hExprs, hNone, ok_bind]
    rfl
  | ifThen p c ts t es e iht ihe =>
    simp only [exprs, parts, mem_cons, mem_append, or_imp, forall_and, forall_eq] at hExprs hStmts
    obtain ⟨⟨hc, ht⟩, he⟩ := hExprs
    obtain ⟨⟨⟨hPresent, hVoid⟩, hThen⟩, hElse⟩ := hStmts
    simp only [check, Expr.inferCondition_self hc hPresent hVoid, ok_bind, isEmpty_nil, Bool.not_true,
      Bool.or_false, iht ht hThen, ihe he hElse]
    rfl
  | whileLoop p c bs b ih =>
    simp only [exprs, parts, mem_cons, mem_append, or_imp, forall_and, forall_eq] at hExprs hStmts
    obtain ⟨hc, hb⟩ := hExprs
    obtain ⟨⟨hPresent, hVoid⟩, hBody⟩ := hStmts
    simp only [check, Expr.inferCondition_self hc hPresent hVoid, ok_bind, isEmpty_nil, Bool.not_true,
      Bool.or_false, ih hb hBody]
    rfl
  | doWhile p bs b c ih =>
    simp only [exprs, parts, mem_cons, mem_append, or_imp, forall_and, forall_eq] at hExprs hStmts
    obtain ⟨hb, hc⟩ := hExprs
    obtain ⟨⟨hPresent, hVoid⟩, hBody⟩ := hStmts
    simp only [check, ih hb hBody, ok_bind, isEmpty_nil, Bool.not_true, Bool.or_false,
      Expr.inferCondition_self hc hPresent hVoid]
    rfl
  | forLoop p init c step bs b ih =>
    simp only [exprs, parts, mem_cons, mem_append, or_imp, forall_and, forall_eq,
      Expr.forall_mem_partsAll] at hExprs hStmts
    obtain ⟨⟨⟨hi, hc⟩, hs⟩, hb⟩ := hExprs
    obtain ⟨⟨hInit, hVoid, hStep⟩, hBody⟩ := hStmts
    have hInit : Expr.inferAll init = .ok (init, []) :=
      Expr.inferAll_self fun e he => Expr.infer_self e (hi e he) (hInit e he)
    have hStep : Expr.inferAll step = .ok (step, []) :=
      Expr.inferAll_self fun e he => Expr.infer_self e (hs e he) (hStep e he)
    simp only [check, hInit, hStep, Expr.inferOptionalCondition_self hc hVoid, ok_bind, isEmpty_nil,
      Bool.not_true, Bool.or_false, ih hb hBody]
    rfl

end Stmt

def Block.WellTyped (result : Ty) (body : Option Block) : Prop :=
  ∃ b, body = some b ∧ Stmt.WellTyped result b.stmts

/-- A global variable has no initial value, or one that is constant and whose type converts to its own. -/
def GlobalVar.WellTyped (v : GlobalVar) : Prop :=
  v.init = .missing ∨ v.init.WellTyped ∧ Ty.coercible v.ty v.init.ty = true ∧ v.init.IsConstant

def Global.WellTyped : Global → Prop
  | .missing => True
  | .var v => v.WellTyped
  | .function f => Block.WellTyped f.result f.body

def Handler.WellTyped (h : Option Handler) : Prop :=
  ∃ handler, h = some handler ∧ Block.WellTyped .void handler.body

def State.WellTyped (s : Option State) : Prop :=
  ∃ state, s = some state ∧ ∀ h ∈ state.events, Handler.WellTyped h

/-- The rules hold in all parts of a script. -/
structure Script.WellTyped (s : Script) : Prop where
  globals : ∀ g ∈ s.globals, g.WellTyped
  states : ∀ st ∈ s.states, State.WellTyped st

/-- A derivation of types for a script: the script with other types noted, which obey the rules. -/
structure Script.Derives (t s : Script) : Prop where
  script : t.forget .resolved = s.forget .resolved
  wellTyped : t.WellTyped

namespace Script

theorem checkBody_self {body : Option Block} (h : Block.WellTyped result body) :
    checkBody result body = .ok (body, []) := by
  obtain ⟨b, rfl, hTyped⟩ := h
  have hStmts : Stmt.checkAll result false b.stmts = .ok (b.stmts, []) :=
    Stmt.checkAll_self fun s hs => Stmt.check_self s
      (fun x hx => hTyped.exprs x (Stmt.mem_exprsAll.mpr ⟨s, hs, hx⟩))
      fun t ht => hTyped.stmts t (Stmt.mem_partsAll.mpr ⟨s, hs, ht⟩)
  simp only [checkBody, Fault.need, hStmts, ok_bind]
  rfl

theorem checkBody_wellTyped {body body' : Option Block} (h : checkBody result body = .ok (body', [])) :
    Block.WellTyped result body' := by
  simp only [checkBody, bind_eq_ok] at h
  obtain ⟨b, _, ⟨stmts, ds⟩, hStmts, h⟩ := h
  cases h
  exact ⟨_, rfl, (Stmt.checkAll_wellTyped hStmts).found.holds rfl rfl⟩

theorem checkUntil_self {α : Type} {step : α → Except Fault (Noted α)} {as : List α}
    (h : ∀ a ∈ as, step a = .ok (a, [])) : checkUntil step as = .ok (as, []) := by
  induction as with
  | nil => rfl
  | cons a as ih =>
    rw [forall_mem_cons] at h
    simp only [checkUntil, h.1, ih h.2, ok_bind]
    rfl

theorem checkUntil_forall {α : Type} {step : α → Except Fault (Noted α)} {P : α → Prop}
    {as as' : List α}
    (hStep : ∀ a a', step a = .ok (a', []) → P a') (h : checkUntil step as = .ok (as', [])) :
    ∀ a ∈ as', P a := by
  induction as generalizing as' with
  | nil =>
    cases h
    exact fun _ ha => nomatch ha
  | cons a as ih =>
    rcases checkUntil_cons.mp h with ⟨b, _, hFound, _⟩ | ⟨b, bs, hb, hbs, rfl⟩
    · exact absurd rfl hFound
    · exact List.forall_mem_cons.mpr ⟨hStep a b hb, ih hbs⟩

theorem checkHandler_self {h : Option Handler} (hTyped : Handler.WellTyped h) :
    checkHandler h = .ok (h, []) := by
  obtain ⟨handler, rfl, hBody⟩ := hTyped
  simp only [checkHandler, Fault.need, checkBody_self hBody, ok_bind]
  rfl

theorem checkHandler_wellTyped (h h' : Option Handler) (hCheck : checkHandler h = .ok (h', [])) :
    Handler.WellTyped h' := by
  simp only [checkHandler, bind_eq_ok] at hCheck
  obtain ⟨handler, _, ⟨body, ds⟩, hBody, hCheck⟩ := hCheck
  cases hCheck
  exact ⟨_, rfl, checkBody_wellTyped hBody⟩

theorem checkState_self {s : Option State} (hTyped : State.WellTyped s) : checkState s = .ok (s, []) := by
  obtain ⟨state, rfl, hEvents⟩ := hTyped
  simp only [checkState, Fault.need, checkUntil_self fun h hh => checkHandler_self (hEvents h hh), ok_bind]
  rfl

theorem checkState_wellTyped (s s' : Option State) (hCheck : checkState s = .ok (s', [])) :
    State.WellTyped s' := by
  simp only [checkState, bind_eq_ok] at hCheck
  obtain ⟨state, _, ⟨events, ds⟩, hEvents, hCheck⟩ := hCheck
  cases hCheck
  exact ⟨_, rfl, checkUntil_forall checkHandler_wellTyped hEvents⟩

section globals

variable {round i : Nat} {env : List Symbol} {cs cs' : Constants} {gs gs' : List Global}

theorem checkGlobals_wellTyped (h : checkGlobals cs gs = .ok ((gs', cs'), [])) :
    ∀ g ∈ gs', g.WellTyped := by
  induction gs generalizing cs gs' with
  | nil =>
    cases h
    exact fun _ hg => nomatch hg
  | cons g gs ih =>
    obtain ⟨o, os, cs₁, ho, hRest, rfl⟩ := checkGlobals_cons_nothing.mp h
    refine List.forall_mem_cons.mpr ⟨?_, ih hRest⟩
    cases g with
    | missing =>
      cases ho
      trivial
    | function f =>
      obtain ⟨body, hBody, rfl, rfl⟩ := checkGlobal_function.mp ho
      exact checkBody_wellTyped hBody
    | var v =>
      obtain ⟨w, hw, rfl⟩ := checkGlobal_var.mp ho
      cases checkGlobalVar_outcome hw with
      | zero hInit => exact .inl hInit
      | found hInfer hFound => exact absurd rfl hFound
      | value hInfer hFits hFold =>
        have hTyped := (Expr.infer_infers _ _ _ hInfer).found.holds rfl
        exact .inr ⟨hTyped, hFits, Expr.isConstant_of_fold _ _ hFold⟩

theorem checkGlobalVar_self {v : GlobalVar} {k : Symbol} (hTyped : v.WellTyped) (hEntry : v.entry = some k)
    (hKnows : cs.Knows v.init) : ∃ new, checkGlobalVar cs v = .ok ((v, new), []) := by
  unfold checkGlobalVar
  split
  · simp only [recordConstant, hEntry, Fault.need]
    exact ⟨_, rfl⟩
  · next hSome =>
    obtain ⟨hTyped, hFits, hConstant⟩ := hTyped.resolve_left hSome
    have hPresent : v.init.isMissing = false := by cases hInit : v.init <;> simp_all [Expr.isMissing]
    obtain ⟨a, hFold⟩ := hConstant.folds v.init hTyped hKnows
    have hTy := Expr.fold_agrees v.init hTyped hKnows a hFold
    obtain ⟨b, hConvert, _⟩ := Value.convert?_of_coercible (hTy ▸ hFits)
    have hRecord :=
      recordConstant_eq_ok.mpr ⟨k, hEntry, @rfl _ (((k.round, k.index), ⟨b, v.init.fourth cs⟩) :: cs)⟩
    simp only [Expr.infer_self v.init hTyped hPresent, ok_bind, hFits, hFold, hConvert, hRecord]
    exact ⟨_, rfl⟩

/-- The analysis of globals in order leaves those in which the rules hold as they are. -/
theorem checkGlobals_self (hOrder : Global.InOrder round i env gs) (hCover : cs.Cover round i env)
    (hTyped : ∀ g ∈ gs, g.WellTyped) : ∃ new, checkGlobals cs gs = .ok ((gs, new), []) := by
  induction gs generalizing i env cs with
  | nil => exact ⟨cs, rfl⟩
  | cons g gs ih =>
    obtain ⟨hg, hgs⟩ := List.forall_mem_cons.mp hTyped
    cases g with
    | missing =>
      obtain ⟨new, hRest⟩ := ih hOrder hCover hgs
      exact ⟨new, checkGlobals_cons_nothing.mpr ⟨_, _, _, rfl, hRest, rfl⟩⟩
    | function f =>
      obtain ⟨new, hRest⟩ := ih hOrder hCover hgs
      refine ⟨new, checkGlobals_cons_nothing.mpr ⟨_, _, _, ?_, hRest, rfl⟩⟩
      exact checkGlobal_function.mpr ⟨_, checkBody_self hg, rfl, rfl⟩
    | var v =>
      obtain ⟨hUses, hEntry, hOrder⟩ := hOrder
      obtain ⟨cs₁, hv⟩ := checkGlobalVar_self hg hEntry (hCover.knows hUses)
      obtain ⟨k, c, hk, rfl, hTy, _⟩ := checkGlobalVar_records hv
      cases hEntry.symm.trans hk
      obtain ⟨new, hRest⟩ := ih hOrder (hCover.record hTy) hgs
      exact ⟨new, checkGlobals_cons_nothing.mpr ⟨_, _, _, checkGlobal_var.mpr ⟨_, hv, rfl⟩, hRest,
        rfl⟩⟩

theorem inOrder_forget :
    Global.InOrder round i env (gs.map (·.forget .resolved)) ↔ Global.InOrder round i env gs := by
  induction gs generalizing i env with
  | nil => rfl
  | cons g gs ih =>
    cases g with
    | missing => exact ih
    | function f => exact ih
    | var v =>
      rw [map_cons, Global.forget, Global.InOrder, Global.InOrder, ih]
      simp only [GlobalVar.forget, GlobalVar.symbol, Expr.notes_forget, Stage.bound]

end globals

section derivations

variable {visible : List LibraryFunction} {round : Nat} {s s₁ s₂ t : Script} {cs cs' : Constants}

/-- The type analysis leaves a script in which the rules hold as it is. -/
theorem check_self (hOrder : Global.InOrder round 0 [] t.globals) (hTyped : t.WellTyped) :
    ∃ new, t.check [] = .ok ((t, new), []) := by
  obtain ⟨new, hGlobals⟩ := checkGlobals_self hOrder Constants.cover_nil hTyped.globals
  have hStates := checkUntil_self fun st hst => checkState_self (hTyped.states st hst)
  refine ⟨new, ?_⟩
  simp only [check, hGlobals, hStates, ok_bind]
  rfl

/-- What the analysis makes of a script is its one derivation. -/
theorem Derives.check (hOrder : Global.InOrder round 0 [] s.globals) (h : t.Derives s) :
    ∃ new, ∀ cs, s.check cs = .ok ((t, new ++ cs), []) ∧ t.check cs = .ok ((t, new ++ cs), []) := by
  have hSame : t.globals.map (·.forget .resolved) = s.globals.map (·.forget .resolved) :=
    congrArg Script.globals h.script
  have hInner : Global.InOrder round 0 [] t.globals := by
    rw [← inOrder_forget, hSame, inOrder_forget]
    exact hOrder
  obtain ⟨new, hSelf⟩ := check_self hInner h.wellTyped
  refine ⟨new, fun cs => ?_⟩
  have hSelf : t.check cs = .ok ((t, new ++ cs), []) := by
    rw [check_older hInner, hSelf]
    rfl
  have hTyped := check_forget cs t
  have hGiven := check_forget cs s
  rw [hSelf, h.script] at hTyped
  generalize (s.forget .resolved).check cs = x at hTyped hGiven
  generalize s.check cs = y at hGiven
  cases hTyped with
  | @ok _ r hTyped =>
    cases hGiven with
    | @ok q _ hGiven =>
      have hFound : q.2 = [] := hGiven.found.symm.trans hTyped.found
      have hTree : q.1 = (t, new ++ cs) := (hGiven.agree hFound).symm.trans (hTyped.agree rfl)
      exact ⟨congrArg Except.ok (Prod.ext hTree hFound), hSelf⟩

/-- An analysis that finds nothing leaves a derivation. -/
theorem derives_of_check (hOrder : Global.InOrder round 0 [] s.globals)
    (h : s.check cs = .ok ((t, cs'), [])) : t.Derives s := by
  refine ⟨check_keeps h, ?_⟩
  rw [check_older hOrder, map_eq_ok] at h
  obtain ⟨⟨⟨t, new⟩, ds⟩, h, hSame⟩ := h
  cases hSame
  obtain ⟨globals, states, hGlobals, hStates, rfl⟩ := check_parts h
  exact ⟨checkGlobals_wellTyped hGlobals, checkUntil_forall checkState_wellTyped hStates⟩

/-- The type analysis accepts exactly the scripts that have a derivation of types, given that no error is
found in their names. There is one derivation at most, and the types in it are those that the analysis notes.
A second analysis of what the first has accepted changes no note and no initial value, and finds nothing. -/
theorem check_iff_derives {ds₁ ds₂ : List Diagnostic}
    (hDeclare : s.declare visible round = (s₁, ds₁)) (hDeclared : Diagnostic.failed ds₁ = false)
    (hResolve : s₁.resolve = .ok (s₂, ds₂)) (hResolved : Diagnostic.failed ds₂ = false)
      (cs : Constants) :
    ∃ s₃ cs' ds, s₂.check cs = .ok ((s₃, cs'), ds) ∧
      (Diagnostic.failed ds = false ↔ ∃ t : Script, t.Derives s₂) ∧
        (∀ t : Script, t.Derives s₂ → t = s₃) ∧
      (Diagnostic.failed ds = false → ∃ cs'', s₃.check cs' = .ok ((s₃, cs''), []) ∧
        ∀ k, cs''.lookup k = cs'.lookup k) := by
  obtain ⟨⟨⟨s₃, cs'⟩, ds⟩, hCheck⟩ :=
    ((declare_named hDeclare hDeclared).prepared hResolve hResolved).check_succeeds cs
  obtain rfl := Session.eq_nil_of_not_failed (declare_declared hDeclare).1 hDeclared
  obtain rfl := Session.eq_nil_of_not_failed (resolve_errors hResolve) hResolved
  have hOrder := inOrder_globals hDeclare hResolve
  have hAccepted : Diagnostic.failed ds = false → s₃.Derives s₂ := by
    intro hFailed
    obtain rfl := Session.eq_nil_of_not_failed (check_checked hCheck).1 hFailed
    exact derives_of_check hOrder hCheck
  refine ⟨s₃, cs', ds, hCheck, ⟨fun hFailed => ⟨s₃, hAccepted hFailed⟩, ?_⟩, ?_,
    fun hFailed => ?_⟩
  · rintro ⟨t, ht⟩
    obtain ⟨new, hNew⟩ := ht.check hOrder
    cases hCheck.symm.trans (hNew cs).1
    rfl
  · intro t ht
    obtain ⟨new, hNew⟩ := ht.check hOrder
    cases hCheck.symm.trans (hNew cs).1
    rfl
  · obtain ⟨new, hNew⟩ := (hAccepted hFailed).check hOrder
    cases hCheck.symm.trans (hNew cs).1
    refine ⟨new ++ (new ++ cs), (hNew _).2, fun k => ?_⟩
    simp only [lookup_append]
    cases new.lookup k <;> rfl

end derivations

/-- The example has a derivation, and only the one that the analysis leaves. -/
theorem check_iff_derives_counting : ∃ s₁ s₂ s₃ cs, counting.declare [] 0 = (s₁, []) ∧
    s₁.resolve = .ok (s₂, []) ∧ s₂.check [] = .ok ((s₃, cs), []) ∧ s₃.Derives s₂ ∧
      ∀ t : Script, t.Derives s₂ → t = s₃ := by
  obtain ⟨s₁, s₂, s₃, cs, hDeclare, hResolve, hCheck, _⟩ := counting_accepted
  obtain ⟨t, _, _, hOther, hDerives, hUnique, _⟩ := check_iff_derives hDeclare rfl hResolve rfl []
  cases hCheck.symm.trans hOther
  obtain ⟨u, hu⟩ := hDerives.mp rfl
  exact ⟨s₁, s₂, s₃, cs, hDeclare, hResolve, hCheck, hUnique u hu ▸ hu, hUnique⟩

end Script
end Lsl
