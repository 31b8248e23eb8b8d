import Lsl.Proofs.NoteChanges

/-! What the type analysis establishes. The rule of a node mentions only the node and the types noted
on its children, and an expression is well typed when the rule holds at each of its parts. An
analysis that finds nothing leaves such a tree, and it never touches anything but types. -/
namespace Lsl

variable {holds : Bool} {d : Diagnostic} {v : Option Ident} {ds : List Diagnostic} {x : Expr}
  {es : List Expr}

variable {x' : Expr} {failed : Bool} {result : Ty} {ss ss' : List Stmt}

theorem need_eq_ok {α : Type} {f : Fault} {o : Option α} {a : α} :
    f.need o = .ok a ↔ o = some a := by
  cases o <;> simp [Fault.need]

/-- An analysis that stops at what it finds goes on after it has found nothing. -/
theorem stops_eq_ok {α : Type} {a b : α} {ds' : List Diagnostic} {next : Except Fault (Noted α)} :
    (if !ds.isEmpty then pure (a, ds) else next) = .ok (b, ds') ↔
      (ds ≠ [] ∧ a = b ∧ ds = ds') ∨ (ds = [] ∧ next = .ok (b, ds')) := by
  cases ds <;> simp [pure_eq_ok]

theorem Assures.test (hError : d.isError = true) :
    Assures (unlessHolds holds d) (holds = true) := by
  cases holds with
  | true => exact nothing rfl
  | false => exact ⟨by simpa [unlessHolds] using hError, by simp [unlessHolds]⟩

@[simp] theorem unlessHolds_eq_nil :
    unlessHolds holds d = [] ↔ holds = true := by
  cases holds <;> simp [unlessHolds]

@[simp] theorem mismatch_isError (pos : Pos) (message : String) :
    (mismatch pos message).isError = true := rfl

/-- The type noted for a variable is that of its symbol, and that of a component is a float. -/
def Ident.Ruled (v : Ident) : Prop :=
  ∃ s, v.entry = some s ∧
    (v.member = "" ∧ v.ty = s.ty ∨ v.member ≠ "" ∧ hasMember s.ty v.member = true ∧ v.ty = .float)

namespace Expr

/-- An expression that may be a component of a vector or rotation. -/
def IsComponent (x : Expr) : Prop := x.isMissing = false ∧ Ty.assignable .float x.ty = true

/-- An expression that may be an element of a list. -/
def IsElement (x : Expr) : Prop := x.isMissing = false ∧ x.ty ≠ .list ∧ x.ty ≠ .void

/-- The rule that the notes of one node obey. -/
def Ruled : Expr → Prop
  | missing => False
  | int _ _ t => t = .integer
  | float _ _ t => t = .float
  | string _ _ t => t = .string
  | vector _ x y z t => t = .vector ∧ IsComponent x ∧ IsComponent y ∧ IsComponent z
  | rotation _ x y z s t =>
    t = .rotation ∧ IsComponent x ∧ IsComponent y ∧ IsComponent z ∧ IsComponent s
  | list _ es t => t = .list ∧ ∀ e ∈ es, IsElement e
  | ident v => v.Ruled
  | unary _ op x t => x.isMissing = false ∧ op.unaryResult? x.ty = some t
  | binary _ op l r la ra t =>
    l.isMissing = false ∧ r.isMissing = false ∧ op.binaryResult? l.ty r.ty = some t ∧
      op.promote l.ty r.ty = (la, ra)
  | assign _ op v x la ra t =>
    x.isMissing = false ∧ ∃ w, v = some w ∧ w.Ruled ∧ assignmentFits op w.ty x.ty = true ∧
      assignmentTypes op w.ty x.ty = (la, ra) ∧ t = w.ty
  | incDec _ _ _ v t =>
    ∃ w, v = some w ∧ w.Ruled ∧ (w.ty = .integer ∨ w.ty = .float) ∧ t = w.ty
  | cast _ target x t => x.isMissing = false ∧ Ty.castable x.ty target = true ∧ t = target
  | call _ _ args c t =>
    (∀ e ∈ args, e.isMissing = false) ∧ ∃ s, c = some s ∧
      argumentsFit (s.params.getD []) (args.map ty) = true ∧ t = s.ty
  | paren _ x t => x.isMissing = false ∧ t = x.ty
  | print _ x t => x.isMissing = false ∧ x.ty ≠ .void ∧ t = .void

/-- The rule holds at each part of an expression. -/
def WellTyped (x : Expr) : Prop := ∀ y ∈ x.parts, y.Ruled

section parts

variable {p : Pos} {op : Operator} {y z s l r : Expr} {t la ra target : Ty}

theorem wellTyped_vector : (vector p x y z t).WellTyped ↔
    (vector p x y z t).Ruled ∧ x.WellTyped ∧ y.WellTyped ∧ z.WellTyped := by
  simp [WellTyped, parts, or_imp, forall_and]

theorem wellTyped_rotation : (rotation p x y z s t).WellTyped ↔
    (rotation p x y z s t).Ruled ∧ x.WellTyped ∧ y.WellTyped ∧ z.WellTyped ∧ s.WellTyped := by
  simp [WellTyped, parts, or_imp, forall_and]

theorem wellTyped_list : (list p es t).WellTyped ↔
    (list p es t).Ruled ∧ ∀ e ∈ es, e.WellTyped := by
  simp only [WellTyped, parts, List.mem_cons, forall_eq_or_imp, forall_mem_partsAll]

theorem wellTyped_unary : (unary p op x t).WellTyped ↔ (unary p op x t).Ruled ∧ x.WellTyped := by
  simp [WellTyped, parts]

theorem wellTyped_binary : (binary p op l r la ra t).WellTyped ↔
    (binary p op l r la ra t).Ruled ∧ l.WellTyped ∧ r.WellTyped := by
  simp [WellTyped, parts, or_imp, forall_and]

theorem wellTyped_assign : (assign p op v x la ra t).WellTyped ↔
    (assign p op v x la ra t).Ruled ∧ x.WellTyped := by
  simp only [WellTyped, parts, List.mem_append, List.mem_cons, or_imp, forall_and, forall_eq]
  refine ⟨fun h => ⟨h.1.1, h.2⟩, fun h => ⟨⟨h.1, fun y hy => ?_⟩, h.2⟩⟩
  obtain ⟨_, w, rfl, hRuled, _⟩ := h.1
  simp only [ofTarget, Option.map_some, Option.toList_some, List.mem_singleton] at hy
  subst hy
  exact hRuled

theorem wellTyped_cast : (cast p target x t).WellTyped ↔
    (cast p target x t).Ruled ∧ x.WellTyped := by
  simp [WellTyped, parts]

theorem wellTyped_call {name : String} {c : Option Symbol} : (call p name es c t).WellTyped ↔
    (call p name es c t).Ruled ∧ ∀ e ∈ es, e.WellTyped := by
  simp only [WellTyped, parts, List.mem_cons, forall_eq_or_imp, forall_mem_partsAll]

theorem wellTyped_paren : (paren p x t).WellTyped ↔ (paren p x t).Ruled ∧ x.WellTyped := by
  simp [WellTyped, parts]

theorem wellTyped_print : (print p x t).WellTyped ↔ (print p x t).Ruled ∧ x.WellTyped := by
  simp [WellTyped, parts]

/-- The rule of an assignment, plain or with an operator. -/
theorem Ruled.assign_cases (h : (assign p op v x la ra t).Ruled) :
    ∃ w sym, v = some w ∧ w.entry = some sym ∧ t = w.ty ∧
      (op = .none ∧ Ty.assignable w.ty x.ty = true ∨ op ≠ .none ∧ ∃ res, op.binaryResult? w.ty
        x.ty = some res ∧
        op.promote w.ty x.ty = (la, ra) ∧ Ty.assignable w.ty res = true) := by
  obtain ⟨_, w, rfl, ⟨sym, hEntry, _⟩, hFits, hTypes, rfl⟩ := h
  refine ⟨w, sym, rfl, hEntry, rfl, ?_⟩
  by_cases hOp : op = .none
  · exact .inl ⟨hOp, by simpa [assignmentFits, hOp] using hFits⟩
  · simp only [assignmentFits, assignmentTypes, hOp, if_false] at hFits hTypes
    cases hRes : op.binaryResult? w.ty x.ty with
    | none => simp [hRes] at hFits
    | some res => exact .inr ⟨hOp, res, rfl, hTypes, by simpa only [hRes] using hFits⟩

theorem WellTyped.ruled (h : x.WellTyped) (hPresent : x.isMissing = false) : x.Ruled :=
  h x (mem_parts_self hPresent)

end parts

/-- What a run of the type analysis over an expression leaves. -/
structure Infers (x x' : Expr) (ds : List Diagnostic) : Prop where
  present : x'.isMissing = false
  keeps : ∀ k, x'.forget k = x.forget k
  found : Assures ds x'.WellTyped

/-- What a run over the expressions of a list leaves. -/
structure InfersAll (es es' : List Expr) (ds : List Diagnostic) : Prop where
  present : ∀ e ∈ es', e.isMissing = false
  keeps : ∀ k, forgetAll k es' = forgetAll k es
  found : Assures ds (∀ e ∈ es', e.WellTyped)

/-- The symbols noted before are kept. -/
theorem Infers.notes (h : Infers x x' ds) : x'.notes = x.notes := by
  rw [← x'.notes_forget, h.keeps, x.notes_forget]

end Expr

theorem Ident.infer_ruled {v w : Ident} (h : v.infer = .ok (w, ds)) :
    (∀ k, w.forget k = v.forget k) ∧ Assures ds w.Ruled := by
  simp only [Ident.infer, bind_eq_ok, need_eq_ok] at h
  obtain ⟨s, hs, h⟩ := h
  split at h
  · next hMember =>
    cases h
    exact ⟨fun _ => rfl, .nothing ⟨s, hs, Or.inl ⟨hMember, rfl⟩⟩⟩
  · next hMember =>
    cases h
    exact ⟨fun _ => rfl, (Assures.test rfl).imp fun hHas => ⟨s, hs, Or.inr ⟨hMember, hHas, rfl⟩⟩⟩

namespace Expr

/-- A component of a vector or rotation. -/
theorem Infers.component (h : Infers x x' ds) :
    Assures (ds ++ x'.componentProblems) (x'.WellTyped ∧ IsComponent x') :=
  (h.found.append (.test rfl)).imp fun hBoth => ⟨hBoth.1, h.present, hBoth.2⟩

theorem elementProblems_assures (x : Expr) : Assures x.elementProblems
    (x.ty ≠ .list ∧ x.ty ≠ .void) := by
  unfold elementProblems
  split
  · exact ⟨by simp [Diagnostic.isError], by simp⟩
  · exact ⟨by simp, by simp⟩
  · next hList hVoid => exact .nothing ⟨hList, hVoid⟩

theorem inferAll_infers {es' : List Expr} (ih : ∀ e ∈ es, ∀ e' de, e.infer = .ok (e', de) →
    Infers e e' de)
    (h : inferAll es = .ok (es', ds)) : InfersAll es es' ds := by
  induction es generalizing es' ds with
  | nil =>
    cases h
    exact ⟨by simp, fun _ => rfl, .nothing (by simp)⟩
  | cons e es ihList =>
    simp only [inferAll, bind_eq_ok] at h
    obtain ⟨⟨e', de⟩, he, ⟨es', ds'⟩, hes, h⟩ := h
    cases h
    have hHead := ih e (by simp) e' de he
    have hTail := ihList (fun x hx => ih x (by simp [hx])) hes
    exact ⟨List.forall_mem_cons.mpr ⟨hHead.present, hTail.present⟩,
      fun k => by simp only [forgetAll, hHead.keeps, hTail.keeps],
      (hHead.found.append hTail.found).imp List.forall_mem_cons.mpr⟩

theorem inferElements_infers {es' : List Expr}
    (ih : ∀ e ∈ es, ∀ e' de, e.infer = .ok (e', de) → Infers e e' de)
      (h : inferElements es = .ok (es', ds)) :
    (∀ k, forgetAll k es' = forgetAll k es) ∧ Assures ds (∀ e ∈ es', IsElement e ∧ e.WellTyped) :=
      by
  induction es generalizing es' ds with
  | nil =>
    cases h
    exact ⟨fun _ => rfl, .nothing (by simp)⟩
  | cons e es ihList =>
    simp only [inferElements, bind_eq_ok] at h
    obtain ⟨⟨e', de⟩, he, ⟨es', ds'⟩, hes, h⟩ := h
    cases h
    have hHead := ih e (by simp) e' de he
    obtain ⟨hKeeps, hFound⟩ := ihList (fun x hx => ih x (by simp [hx])) hes
    refine ⟨fun k => by simp only [forgetAll, hHead.keeps, hKeeps], ?_⟩
    refine ((hHead.found.append (elementProblems_assures e')).append hFound).imp ?_
    rintro ⟨⟨hTyped, hElement⟩, hRest⟩
    exact List.forall_mem_cons.mpr ⟨⟨⟨hHead.present, hElement⟩, hTyped⟩, hRest⟩

/-- The type analysis changes types only, reports errors only, and leaves an expression well typed if
it finds nothing. -/
theorem infer_infers (x x' : Expr) (ds : List Diagnostic) (h : x.infer = .ok (x', ds)) : Infers x x' ds := by
  induction x generalizing x' ds with
  | missing => cases h
  | int p n t | float p n t | string p n t =>
    cases h
    exact ⟨rfl, fun _ => rfl, .nothing (by simp [WellTyped, parts, Ruled])⟩
  | vector p x y z t ihx ihy ihz =>
    simp only [infer, bind_eq_ok] at h
    obtain ⟨⟨x, dx⟩, hx, ⟨y, dy⟩, hy, ⟨z, dz⟩, hz, h⟩ := h
    cases h
    have hx := ihx x dx hx
    have hy := ihy y dy hy
    have hz := ihz z dz hz
    refine ⟨rfl, fun k => by simp only [forget, hx.keeps, hy.keeps, hz.keeps], ?_⟩
    refine ((hx.component.append hy.component).append hz.component).imp ?_
    rintro ⟨⟨⟨hx, hcx⟩, hy, hcy⟩, hz, hcz⟩
    exact wellTyped_vector.mpr ⟨⟨rfl, hcx, hcy, hcz⟩, hx, hy, hz⟩
  | rotation p x y z s t ihx ihy ihz ihs =>
    simp only [infer, bind_eq_ok] at h
    obtain ⟨⟨x, dx⟩, hx, ⟨y, dy⟩, hy, ⟨z, dz⟩, hz, ⟨s, ds⟩, hs, h⟩ := h
    cases h
    have hx := ihx x dx hx
    have hy := ihy y dy hy
    have hz := ihz z dz hz
    have hs := ihs s ds hs
    refine ⟨rfl, fun k => by simp only [forget, hx.keeps, hy.keeps, hz.keeps, hs.keeps], ?_⟩
    refine (((hx.component.append hy.component).append hz.component).append hs.component).imp ?_
    rintro ⟨⟨⟨⟨hx, hcx⟩, hy, hcy⟩, hz, hcz⟩, hs, hcs⟩
    exact wellTyped_rotation.mpr ⟨⟨rfl, hcx, hcy, hcz, hcs⟩, hx, hy, hz, hs⟩
  | list p es t ih =>
    simp only [infer, bind_eq_ok] at h
    obtain ⟨⟨es', ds⟩, hes, h⟩ := h
    cases h
    obtain ⟨hKeeps, hFound⟩ := inferElements_infers ih hes
    exact ⟨rfl, fun k => by simp only [forget, hKeeps], hFound.imp fun hes =>
      wellTyped_list.mpr ⟨⟨rfl, fun e he => (hes e he).1⟩, fun e he => (hes e he).2⟩⟩
  | ident v =>
    simp only [infer, bind_eq_ok] at h
    obtain ⟨⟨w, dw⟩, hw, h⟩ := h
    cases h
    obtain ⟨hKeeps, hFound⟩ := Ident.infer_ruled hw
    exact ⟨rfl, fun k => by simp only [forget, hKeeps],
      hFound.imp fun hRuled => by simpa [WellTyped, parts, Ruled] using hRuled⟩
  | unary p op x t ih =>
    simp only [infer, bind_eq_ok] at h
    obtain ⟨⟨x, dx⟩, hx, h⟩ := h
    cases h
    have hx := ih x dx hx
    refine ⟨rfl, fun k => by simp only [forget, hx.keeps], (hx.found.append (.test rfl)).imp ?_⟩
    rintro ⟨hTyped, hSome⟩
    obtain ⟨u, hu⟩ := Option.isSome_iff_exists.mp hSome
    exact wellTyped_unary.mpr ⟨⟨hx.present, by simp [hu]⟩, hTyped⟩
  | binary p op l r la ra t ihl ihr =>
    simp only [infer, bind_eq_ok] at h
    obtain ⟨⟨l, dl⟩, hl, ⟨r, dr⟩, hr, h⟩ := h
    cases h
    have hl := ihl l dl hl
    have hr := ihr r dr hr
    refine ⟨rfl, fun k => by simp only [forget, hl.keeps, hr.keeps], ?_⟩
    refine ((hl.found.append hr.found).append (.test rfl)).imp ?_
    rintro ⟨⟨hLeft, hRight⟩, hSome⟩
    obtain ⟨u, hu⟩ := Option.isSome_iff_exists.mp hSome
    exact wellTyped_binary.mpr ⟨⟨hl.present, hr.present, by simp [hu], rfl⟩, hLeft, hRight⟩
  | assign p op v x la ra t ih =>
    simp only [infer, bind_eq_ok, need_eq_ok] at h
    obtain ⟨v, rfl, ⟨w, dw⟩, hw, ⟨x, dx⟩, hx, h⟩ := h
    cases h
    have hx := ih x dx hx
    obtain ⟨hKeeps, hFound⟩ := Ident.infer_ruled hw
    refine ⟨rfl, fun k => by simp only [forget, Option.map_some, hKeeps, hx.keeps], ?_⟩
    refine ((hFound.append hx.found).append (.test rfl)).imp ?_
    rintro ⟨⟨hRuled, hTyped⟩, hFits⟩
    exact wellTyped_assign.mpr ⟨⟨hx.present, w, rfl, hRuled, hFits, rfl, rfl⟩, hTyped⟩
  | incDec p d b v t =>
    simp only [infer, bind_eq_ok, need_eq_ok] at h
    obtain ⟨v, rfl, ⟨w, dw⟩, hw, h⟩ := h
    cases h
    obtain ⟨hKeeps, hFound⟩ := Ident.infer_ruled hw
    refine ⟨rfl, fun k => by simp only [forget, Option.map_some, hKeeps],
      (hFound.append (.test rfl)).imp ?_⟩
    rintro ⟨hRuled, hNumber⟩
    simp only [Bool.or_eq_true, beq_iff_eq] at hNumber
    simpa [WellTyped, parts, ofTarget, Ruled] using ⟨⟨hRuled, hNumber⟩, hRuled⟩
  | cast p target x t ih =>
    simp only [infer, bind_eq_ok] at h
    obtain ⟨⟨x, dx⟩, hx, h⟩ := h
    cases h
    have hx := ih x dx hx
    exact ⟨rfl, fun k => by simp only [forget, hx.keeps], (hx.found.append (.test rfl)).imp
      fun hBoth => wellTyped_cast.mpr ⟨⟨hx.present, hBoth.2, rfl⟩, hBoth.1⟩⟩
  | call p name args c t ih =>
    simp only [infer, bind_eq_ok, need_eq_ok] at h
    obtain ⟨⟨args, ds⟩, hArgs, s, rfl, h⟩ := h
    cases h
    have hArgs := inferAll_infers ih hArgs
    exact ⟨rfl, fun k => by simp only [forget, hArgs.keeps], (hArgs.found.append (.test rfl)).imp
      fun hBoth => wellTyped_call.mpr ⟨⟨hArgs.present, s, rfl, hBoth.2, rfl⟩, hBoth.1⟩⟩
  | paren p x t ih =>
    simp only [infer, bind_eq_ok] at h
    obtain ⟨⟨x, dx⟩, hx, h⟩ := h
    cases h
    have hx := ih x dx hx
    exact ⟨rfl, fun k => by simp only [forget, hx.keeps], hx.found.imp
      fun hTyped => wellTyped_paren.mpr ⟨⟨hx.present, rfl⟩, hTyped⟩⟩
  | print p x t ih =>
    simp only [infer, bind_eq_ok] at h
    obtain ⟨⟨x, dx⟩, hx, h⟩ := h
    cases h
    have hx := ih x dx hx
    exact ⟨rfl, fun k => by simp only [forget, hx.keeps], (hx.found.append (.test rfl)).imp
      fun hBoth => wellTyped_print.mpr ⟨⟨hx.present, bne_iff_ne.mp hBoth.2, rfl⟩, hBoth.1⟩⟩

theorem inferCondition_infers (h : x.inferCondition failed = .ok (x', ds)) :
    (∀ k, x'.forget k = x.forget k) ∧
      Assures ds (failed = false → x'.WellTyped ∧ x'.isMissing = false ∧ x'.ty ≠ .void) := by
  simp only [inferCondition, bind_eq_ok] at h
  obtain ⟨⟨x, dx⟩, hx, h⟩ := h
  cases h
  have hx := infer_infers _ x dx hx
  refine ⟨hx.keeps, (hx.found.append (.test rfl)).errors, fun hNone hFailed => ?_⟩
  obtain ⟨rfl, hHolds⟩ := List.append_eq_nil_iff.mp hNone
  exact ⟨hx.found.holds rfl, hx.present, by simpa [hFailed] using hHolds⟩

theorem inferOptional_infers (h : x.inferOptional = .ok (x', ds)) :
    (∀ k, x'.forget k = x.forget k) ∧ Assures ds x'.WellTyped := by
  unfold inferOptional at h
  split at h
  · cases h
    exact ⟨fun _ => rfl, .nothing (by simp [WellTyped, parts])⟩
  · have hx := infer_infers _ _ _ h
    exact ⟨hx.keeps, hx.found⟩

theorem inferOptionalCondition_infers (h : x.inferOptionalCondition failed = .ok (x', ds)) :
    (∀ k, x'.forget k = x.forget k) ∧
      Assures ds (failed = false → x'.WellTyped ∧ (x'.isMissing = true ∨ x'.ty ≠ .void)) := by
  unfold inferOptionalCondition at h
  split at h
  · cases h
    exact ⟨fun _ => rfl, .nothing fun _ => ⟨by simp [WellTyped, parts], Or.inl rfl⟩⟩
  · obtain ⟨hKeeps, hFound⟩ := inferCondition_infers h
    exact ⟨hKeeps, hFound.imp fun hx hFailed => ⟨(hx hFailed).1, Or.inr (hx hFailed).2.2⟩⟩

end Expr

namespace Stmt

/-- The rule that the types in one statement obey, in a body with the given result. -/
def Ruled (result : Ty) : Stmt → Prop
  | expr _ x => x.isMissing = false
  | decl _ _ ty init _ => init.isMissing = true ∨ Ty.coercible ty init.ty = true
  | ifThen _ c _ _ _ _ | .while _ c _ _ | doWhile _ _ _ c => c.isMissing = false ∧ c.ty ≠ .void
  | .for _ init c step _ _ =>
    (∀ x ∈ init, x.isMissing = false) ∧ (c.isMissing = true ∨ c.ty ≠ .void) ∧
      ∀ x ∈ step, x.isMissing = false
  | ret _ v => v.isMissing = true ∨ result = .void ∨ Ty.assignable result v.ty = true
  | missing | block .. | jump .. | label .. | goto .. | empty _ => True

/-- The rules hold in all parts of statements and in all their expressions. -/
structure WellTyped (result : Ty) (ss : List Stmt) : Prop where
  exprs : ∀ x ∈ exprsAll ss, x.Ruled
  stmts : ∀ t ∈ partsAll ss, t.Ruled result

/-- What a run of the type analysis over a statement leaves. If an error was found before, the
statement may be left alone. -/
structure Checks (result : Ty) (failed : Bool) (s s' : Stmt) (ds : List Diagnostic) : Prop where
  keeps : ∀ k, s'.forget k = s.forget k
  found : Assures ds (failed = false → (∀ x ∈ s'.exprs, x.Ruled) ∧ ∀ t ∈ s'.parts, t.Ruled result)

theorem declProblems_assures (pos : Pos) (name : String) (ty : Ty) (x : Expr) :
    Assures (declProblems pos name ty x) (x.isMissing = true ∨ Ty.coercible ty x.ty = true) := by
  cases x with
  | missing => exact .nothing (.inl rfl)
  | _ => exact (Assures.test rfl).imp .inr

theorem returnProblems_assures (pos : Pos) (result : Ty) (x : Expr) : Assures (returnProblems pos result x)
    (x.isMissing = true ∨ result = .void ∨ Ty.assignable result x.ty = true) := by
  cases x with
  | missing => exact .nothing (.inl rfl)
  | _ => exact (Assures.test rfl).imp fun hFits => .inr (by simpa using hFits)

/-- What a run over statements in order leaves. -/
structure ChecksAll (result : Ty) (failed : Bool) (ss ss' : List Stmt) (ds : List Diagnostic) :
    Prop where
  keeps : ∀ k, forgetAll k ss' = forgetAll k ss
  found : Assures ds (failed = false → WellTyped result ss')

theorem checkAll_checks
    (ih : ∀ s ∈ ss, ∀ failed s' d, check result failed s = .ok (s', d) → Checks result failed s s' d)
    (h : checkAll result failed ss = .ok (ss', ds)) : ChecksAll result failed ss ss' ds := by
  induction ss generalizing failed ss' ds with
  | nil =>
    cases h
    exact ⟨fun _ => rfl, .nothing fun _ => ⟨by simp [exprsAll], by simp [partsAll]⟩⟩
  | cons s ss ihList =>
    cases failed with
    | true =>
      simp only [checkAll, if_true] at h
      cases h
      exact ⟨fun _ => rfl, .nothing fun hFailed => by cases hFailed⟩
    | false =>
      simp only [checkAll, Bool.false_eq_true, if_false, bind_eq_ok] at h
      obtain ⟨⟨s', d⟩, hs, ⟨ss', ds⟩, hss, h⟩ := h
      cases h
      have hs := ih s (by simp) _ _ _ hs
      have hss := ihList (fun t ht => ih t (by simp [ht])) hss
      refine ⟨fun k => by simp only [forgetAll, hs.keeps, hss.keeps],
        (hs.found.andThen hss.found (by simp)).imp ?_⟩
      intro hBoth _
      obtain ⟨⟨hExprs, hParts⟩, hTail⟩ := hBoth rfl
      constructor
      · simpa [exprsAll, or_imp, forall_and] using ⟨hExprs, hTail.exprs⟩
      · simpa [partsAll, or_imp, forall_and] using ⟨hParts, hTail.stmts⟩

/-- The type analysis changes types only, reports errors only, and leaves a statement well
typed if nothing is found in it or was found before. -/
theorem check_checks (result : Ty) (s : Stmt) (failed : Bool) (s' : Stmt) (ds : List Diagnostic)
    (h : check result failed s = .ok (s', ds)) : Checks result failed s s' ds := by
  induction s generalizing failed s' ds with
  | missing | jump | label | goto | empty =>
    cases h
    exact ⟨fun _ => rfl, .nothing fun _ => ⟨by simp [exprs], by simp [parts, Ruled]⟩⟩
  | block p scope ss ih =>
    simp only [check, bind_eq_ok] at h
    obtain ⟨⟨ss', ds⟩, hss, h⟩ := h
    cases h
    have hss := checkAll_checks ih hss
    refine ⟨fun k => by simp only [forget, hss.keeps], hss.found.imp fun hTyped hFailed => ?_⟩
    exact ⟨(hTyped hFailed).exprs, by simpa [parts, Ruled] using (hTyped hFailed).stmts⟩
  | expr p x =>
    simp only [check, bind_eq_ok] at h
    obtain ⟨⟨x, dx⟩, hx, h⟩ := h
    cases h
    have hx := Expr.infer_infers _ _ _ hx
    exact ⟨fun k => by simp only [forget, hx.keeps],
      hx.found.imp fun hTyped _ => ⟨hTyped, by simpa [parts, Ruled] using hx.present⟩⟩
  | decl p name ty init entry =>
    simp only [check, bind_eq_ok] at h
    obtain ⟨⟨x, dx⟩, hx, h⟩ := h
    cases h
    obtain ⟨hKeeps, hFound⟩ := Expr.inferOptional_infers hx
    exact ⟨fun k => by simp only [forget, hKeeps], (hFound.append (declProblems_assures p name ty x)).imp
      fun hBoth _ => ⟨hBoth.1, by simpa [parts, Ruled] using hBoth.2⟩⟩
  | ifThen p c ts t es e iht ihe =>
    simp only [check, bind_eq_ok] at h
    obtain ⟨⟨c, dc⟩, hc, ⟨t, dt⟩, ht, ⟨e, de⟩, he, h⟩ := h
    cases h
    obtain ⟨hKeeps, hCond⟩ := Expr.inferCondition_infers hc
    have ht := iht _ _ _ ht
    have he := ihe _ _ _ he
    refine ⟨fun k => by simp only [forget, hKeeps, ht.keeps, he.keeps], ?_⟩
    refine ((hCond.andThen ht.found).andThen he.found).imp fun hAll hFailed => ?_
    obtain ⟨⟨⟨hTyped, hValue⟩, hThen⟩, hElse⟩ := hAll hFailed
    constructor
    · simpa [exprs, or_imp, forall_and] using ⟨hTyped, hThen.1, hElse.1⟩
    · simpa [parts, Ruled, or_imp, forall_and] using ⟨hValue, hThen.2, hElse.2⟩
  | whileLoop p c bs b ih =>
    simp only [check, bind_eq_ok] at h
    obtain ⟨⟨c, dc⟩, hc, ⟨b, db⟩, hb, h⟩ := h
    cases h
    obtain ⟨hKeeps, hCond⟩ := Expr.inferCondition_infers hc
    have hb := ih _ _ _ hb
    refine ⟨fun k => by simp only [forget, hKeeps, hb.keeps], ?_⟩
    refine (hCond.andThen hb.found).imp fun hAll hFailed => ?_
    obtain ⟨⟨hTyped, hValue⟩, hBody⟩ := hAll hFailed
    constructor
    · simpa [exprs, or_imp, forall_and] using ⟨hTyped, hBody.1⟩
    · simpa [parts, Ruled] using ⟨hValue, hBody.2⟩
  | doWhile p bs b c ih =>
    simp only [check, bind_eq_ok] at h
    obtain ⟨⟨b, db⟩, hb, ⟨c, dc⟩, hc, h⟩ := h
    cases h
    obtain ⟨hKeeps, hCond⟩ := Expr.inferCondition_infers hc
    have hb := ih _ _ _ hb
    refine ⟨fun k => by simp only [forget, hKeeps, hb.keeps], ?_⟩
    refine (hb.found.andThen hCond).imp fun hAll hFailed => ?_
    obtain ⟨hBody, hTyped, hValue⟩ := hAll hFailed
    constructor
    · simpa [exprs, or_imp, forall_and] using ⟨hBody.1, hTyped⟩
    · simpa [parts, Ruled] using ⟨hValue, hBody.2⟩
  | forLoop p init c step bs b ih =>
    simp only [check, bind_eq_ok] at h
    obtain ⟨⟨init, di⟩, hi, ⟨c, dc⟩, hc, ⟨step, dst⟩, hs, ⟨b, db⟩, hb, h⟩ := h
    cases h
    have hi := Expr.inferAll_infers (fun e _ => Expr.infer_infers e) hi
    obtain ⟨hKeeps, hCond⟩ := Expr.inferOptionalCondition_infers hc
    have hs := Expr.inferAll_infers (fun e _ => Expr.infer_infers e) hs
    have hb := ih _ _ _ hb
    refine ⟨fun k => by simp only [forget, hi.keeps, hKeeps, hs.keeps, hb.keeps], ?_⟩
    have hInit := hi.found.imp fun hTyped (_ : failed = false) => hTyped
    have hStep := hs.found.imp fun hTyped (_ : false = false) => hTyped
    refine (((hInit.andThen hCond).andThen hStep fun _ _ => rfl).andThen hb.found).imp fun hAll hFailed => ?_
    obtain ⟨⟨⟨hInit, hTyped, hValue⟩, hStep⟩, hBody⟩ := hAll hFailed
    constructor
    · simpa [exprs, or_imp, forall_and, Expr.forall_mem_partsAll] using ⟨hInit, hTyped, hStep, hBody.1⟩
    · simpa [parts, Ruled] using ⟨⟨hi.present, hValue, hs.present⟩, hBody.2⟩
  | ret p v =>
    simp only [check, bind_eq_ok] at h
    obtain ⟨⟨x, dx⟩, hx, h⟩ := h
    cases h
    obtain ⟨hKeeps, hFound⟩ := Expr.inferOptional_infers hx
    exact ⟨fun k => by simp only [forget, hKeeps], (hFound.append (returnProblems_assures p result x)).imp
      fun hBoth _ => ⟨hBoth.1, by simpa [parts, Ruled] using hBoth.2⟩⟩

theorem ChecksAll.notes (h : ChecksAll result failed ss ss' ds) : notesAll ss' = notesAll ss := by
  rw [← notesAll_forget, h.keeps, notesAll_forget]

/-- Statements in which nothing is found are well typed. -/
theorem checkAll_wellTyped (h : checkAll result failed ss = .ok (ss', ds)) :
    ChecksAll result failed ss ss' ds :=
  checkAll_checks (fun s _ => check_checks result s) h

end Stmt
end Lsl
