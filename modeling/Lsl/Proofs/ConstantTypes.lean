import Lsl.Proofs.ScopedScripts

/-! The types of initial values. An initial value names only globals that are defined before it, and by then
a value of its type is known for each of these. So folding gives a value of the type that is noted for the
expression, the value converts to each type that this type is coercible to, and what was known before the
analysis has no part in it. -/
namespace Lsl

variable {v : GlobalVar} {c : Constant} {rest : List Global} {x : Expr} {cs' : Constants}
  {s s₁ s₂ : Script}
  {visible : List LibraryFunction}

namespace Value

theorem neg?_keeps_ty {v w : Value} (h : v.neg? = some w) : w.ty = v.ty := by
  cases v <;> cases h <;> rfl

theorem toComponent?_of_assignable {v : Value} (h : Ty.assignable .float v.ty = true) :
    ∃ a, v.toComponent? = some a := by
  cases v <;> simp_all [toComponent?, ty, Ty.assignable]

/-- A value converts to each type that its own is coercible to. -/
theorem convert?_of_coercible {v : Value} {target : Ty} (h : Ty.coercible target v.ty = true) :
    ∃ w, v.convert? target = some w ∧ w.ty = target := by
  obtain ⟨w, hw⟩ : ∃ w, v.convert? target = some w := by
    unfold convert?
    split
    · exact ⟨v, rfl⟩
    · cases target <;> cases v <;> simp_all [Ty.coercible, Ty.assignable, ty]
  exact ⟨w, hw, convert?_ty hw⟩

end Value

theorem Constant.component?_of_hasMember {member : String}
    (h : hasMember c.value.ty member = true) : ∃ v, c.component? member = some v := by
  obtain ⟨i, hi⟩ : ∃ i, componentIndex? member = some i := by
    unfold hasMember at h
    split at h
    · next hFourth =>
      rw [hFourth]
      exact ⟨3, rfl⟩
    · exact Option.isSome_iff_exists.mp (Bool.and_eq_true_iff.mp h).2
  unfold component?
  rw [hi]
  cases hValue : c.value <;> simp_all [hasMember, Value.ty]

/-- A value of its type is known for each variable that an expression names. -/
def Constants.Knows (cs : Constants) (x : Expr) : Prop :=
  ∀ s, .uses .local (some s) ∈ x.notes → ∃ c, cs.constant? s = some c ∧ c.value.ty = s.ty

namespace Expr

/-- The expressions that are constant: literals, their negations, global variables and their components, and
the vectors, rotations and lists made of these. -/
inductive IsConstant : Expr → Prop where
  | int {p : Pos} {n : Int32} {t : Ty} : IsConstant (int p n t)
  | float {p : Pos} {n : Single} {t : Ty} : IsConstant (float p n t)
  | string {p : Pos} {s : String} {t : Ty} : IsConstant (string p s t)
  | paren {p : Pos} {x : Expr} {t : Ty} (hx : IsConstant x) : IsConstant (paren p x t)
  | neg {p : Pos} {x : Expr} {t : Ty} (hx : IsConstant x) : IsConstant (unary p .neg x t)
  | global {v : Ident} {s : Symbol} (hEntry : v.entry = some s) (hKind : s.kind = .global) :
      IsConstant (ident v)
  | vector {p : Pos} {x y z : Expr} {t : Ty} (hx : IsConstant x) (hy : IsConstant y)
      (hz : IsConstant z) : IsConstant (vector p x y z t)
  | rotation {p : Pos} {x y z s : Expr} {t : Ty} (hx : IsConstant x) (hy : IsConstant y)
      (hz : IsConstant z) (hs : IsConstant s) : IsConstant (rotation p x y z s t)
  | list {p : Pos} {es : List Expr} {t : Ty} (hes : ∀ e ∈ es, IsConstant e) : IsConstant (list p es t)

variable {cs : Constants}

/-- An expression folds to a value of the type that is noted for it. -/
theorem fold_agrees (x : Expr) (hTyped : x.WellTyped) (hKnows : cs.Knows x) (v : Value)
    (h : x.fold cs = some v) : v.ty = x.ty := by
  induction x generalizing v with
  | int p n t | float p n t | string p n t =>
    cases h
    exact (hTyped.ruled rfl).symm
  | paren p x t ih =>
    obtain ⟨⟨_, rfl⟩, hx⟩ := wellTyped_paren.mp hTyped
    exact ih hx hKnows v h
  | unary p op x t ih =>
    obtain ⟨⟨_, hResult⟩, hx⟩ := wellTyped_unary.mp hTyped
    simp only [fold] at h
    split at h
    · next hOp =>
      obtain ⟨w, hw, hNeg⟩ := Option.bind_eq_some_iff.mp h
      have hTy := ih hx hKnows w hw
      rw [hOp, ← hTy] at hResult
      rw [Value.neg?_keeps_ty hNeg]
      cases w <;> cases hNeg <;> cases hResult <;> rfl
    · cases h
  | ident =>
    obtain ⟨s, hEntry, hRule⟩ := hTyped.ruled rfl
    obtain ⟨c, hc, hTy⟩ := hKnows s (by simp [notes, hEntry])
    simp only [fold, hEntry, Option.bind_some, hc] at h
    obtain ⟨hWhole, hNoted⟩ | ⟨hPart, _, hNoted⟩ := hRule
    · rw [if_pos hWhole] at h
      cases h
      exact hTy.trans hNoted.symm
    · rw [if_neg hPart] at h
      simp only [Constant.component?, Option.bind_eq_bind, Option.bind_eq_some_iff] at h
      obtain ⟨i, _, h⟩ := h
      split at h <;> cases h <;> exact hNoted.symm
  | vector p x y z t =>
    obtain ⟨⟨rfl, _⟩, _⟩ := wellTyped_vector.mp hTyped
    exact folded_vector h
  | rotation p x y z s t =>
    obtain ⟨⟨rfl, _⟩, _⟩ := wellTyped_rotation.mp hTyped
    exact folded_rotation h
  | list p es t =>
    obtain ⟨⟨rfl, _⟩, _⟩ := wellTyped_list.mp hTyped
    exact folded_list h
  | _ => cases h

theorem isConstant_of_fold (x : Expr) (v : Value) (h : x.fold cs = some v) : x.IsConstant := by
  induction x generalizing v with
  | int p n t => exact .int
  | float p n t => exact .float
  | string p n t => exact .string
  | paren p x t ih => exact .paren (ih v h)
  | unary p op x t ih =>
    simp only [fold] at h
    split at h
    · next hOp =>
      obtain ⟨w, hw, _⟩ := Option.bind_eq_some_iff.mp h
      rw [hOp]
      exact .neg (ih w hw)
    · cases h
  | ident =>
    simp only [fold] at h
    split at h
    · cases h
    · next c hc =>
      obtain ⟨s, hEntry, hs⟩ := Option.bind_eq_some_iff.mp hc
      unfold Constants.constant? at hs
      split at hs
      · next hKind => exact .global hEntry hKind
      · cases hs
  | vector p x y z t ihx ihy ihz =>
    simp only [fold, Option.bind_eq_bind, Option.bind_eq_some_iff] at h
    obtain ⟨_, ⟨a, hx, _⟩, _, ⟨b, hy, _⟩, _, ⟨c, hz, _⟩, _⟩ := h
    exact .vector (ihx a hx) (ihy b hy) (ihz c hz)
  | rotation p x y z s t ihx ihy ihz ihs =>
    simp only [fold, Option.bind_eq_bind, Option.bind_eq_some_iff] at h
    obtain ⟨_, ⟨a, hx, _⟩, _, ⟨b, hy, _⟩, _, ⟨c, hz, _⟩, _, ⟨d, hs, _⟩, _⟩ := h
    exact .rotation (ihx a hx) (ihy b hy) (ihz c hz) (ihs d hs)
  | list p es t ih =>
    obtain ⟨vs, hvs, _⟩ := Option.map_eq_some_iff.mp h
    refine .list fun e he => ?_
    obtain ⟨w, hw, _⟩ := foldAll_mem hvs hvs e he
    exact ih e he w hw
  | _ => cases h

theorem component_of_fold (hx : x.IsComponent) (hTyped : x.WellTyped) (hKnows : cs.Knows x)
    (h : ∃ v, x.fold cs = some v) : ∃ a, (x.fold cs).bind Value.toComponent? = some a := by
  obtain ⟨v, hv⟩ := h
  rw [hv, Option.bind_some]
  apply Value.toComponent?_of_assignable
  rw [fold_agrees x hTyped hKnows v hv]
  exact hx.2

theorem foldAll_of_elements {es : List Expr} (h : ∀ e ∈ es, ∃ v, e.fold cs = some v ∧
    v.ty ≠ .list) :
    ∃ vs, foldAll cs es = some vs := by
  induction es with
  | nil => exact ⟨[], rfl⟩
  | cons e es ih =>
    rw [List.forall_mem_cons] at h
    obtain ⟨v, hv, hElement⟩ := h.1
    obtain ⟨vs, hvs⟩ := ih h.2
    have hHolds : isElement v = true := bne_iff_ne.mpr hElement
    refine ⟨v :: vs, ?_⟩
    simp [foldAll, hv, hvs, Option.filter_some, hHolds]

/-- A constant that is well typed is folded, once a value is known for each variable in it. -/
theorem IsConstant.folds (x : Expr) (hTyped : x.WellTyped) (hKnows : cs.Knows x) (h : x.IsConstant) :
    ∃ v, x.fold cs = some v := by
  induction x with
  | int p n t | float p n t | string p n t => exact ⟨_, rfl⟩
  | paren p x t ih =>
    cases h with
    | paren h => exact ih (wellTyped_paren.mp hTyped).2 hKnows h
  | unary p op x t ih =>
    cases h with
    | neg h =>
      obtain ⟨⟨_, hResult⟩, hx⟩ := wellTyped_unary.mp hTyped
      obtain ⟨w, hw⟩ := ih hx hKnows h
      rw [← fold_agrees x hx hKnows w hw] at hResult
      simp only [fold, if_true, hw, Option.bind_some]
      cases w <;> first | exact ⟨_, rfl⟩ | cases hResult
  | ident v =>
    obtain ⟨s, hEntry, hRule⟩ := hTyped.ruled rfl
    obtain ⟨c, hc, hTy⟩ := hKnows s (by simp [notes, hEntry])
    simp only [fold, hEntry, Option.bind_some, hc]
    obtain ⟨hWhole, _⟩ | ⟨hPart, hMember, _⟩ := hRule
    · rw [if_pos hWhole]
      exact ⟨_, rfl⟩
    · rw [if_neg hPart]
      exact Constant.component?_of_hasMember (hTy ▸ hMember)
  | vector p x y z t ihx ihy ihz =>
    cases h with
    | vector dx dy dz =>
      obtain ⟨⟨_, hcx, hcy, hcz⟩, hx, hy, hz⟩ := wellTyped_vector.mp hTyped
      simp only [Constants.Knows, notes, List.mem_append, or_imp, forall_and] at hKnows
      obtain ⟨a, ha⟩ := component_of_fold hcx hx hKnows.1.1 (ihx hx hKnows.1.1 dx)
      obtain ⟨b, hb⟩ := component_of_fold hcy hy hKnows.1.2 (ihy hy hKnows.1.2 dy)
      obtain ⟨c, hc⟩ := component_of_fold hcz hz hKnows.2 (ihz hz hKnows.2 dz)
      exact ⟨.vector a b c, by simp only [fold, ha, hb, hc]; rfl⟩
  | rotation p x y z s t ihx ihy ihz ihs =>
    cases h with
    | rotation dx dy dz ds =>
      obtain ⟨⟨_, hcx, hcy, hcz, hcs⟩, hx, hy, hz, hs⟩ := wellTyped_rotation.mp hTyped
      simp only [Constants.Knows, notes, List.mem_append, or_imp, forall_and] at hKnows
      obtain ⟨a, ha⟩ := component_of_fold hcx hx hKnows.1.1.1 (ihx hx hKnows.1.1.1 dx)
      obtain ⟨b, hb⟩ := component_of_fold hcy hy hKnows.1.1.2 (ihy hy hKnows.1.1.2 dy)
      obtain ⟨c, hc⟩ := component_of_fold hcz hz hKnows.1.2 (ihz hz hKnows.1.2 dz)
      obtain ⟨d, hd⟩ := component_of_fold hcs hs hKnows.2 (ihs hs hKnows.2 ds)
      exact ⟨.rotation a b c d, by simp only [fold, ha, hb, hc, hd]; rfl⟩
  | list p es t ih =>
    cases h with
    | list hConstant =>
      obtain ⟨⟨_, hElements⟩, hes⟩ := wellTyped_list.mp hTyped
      have hEach : ∀ e ∈ es, ∃ v, e.fold cs = some v ∧ v.ty ≠ .list := by
        intro e he
        have hKnown : cs.Knows e := fun s hs => hKnows s (mem_notesAll.mpr ⟨e, he, hs⟩)
        obtain ⟨v, hv⟩ := ih e he (hes e he) hKnown (hConstant e he)
        refine ⟨v, hv, ?_⟩
        rw [fold_agrees e (hes e he) hKnown v hv]
        exact (hElements e he).2.1
      obtain ⟨vs, hvs⟩ := foldAll_of_elements hEach
      exact ⟨.list vs, by rw [fold, hvs]; rfl⟩
  | _ => cases h

theorem exists_target_of_uses {v : Option Ident} {entry : Option Symbol}
    (h : .uses .local entry ∈ targetNotes v) : ∃ w, ident w ∈ ofTarget v ∧ w.entry = entry := by
  cases v with
  | none => cases h
  | some w =>
    cases List.mem_singleton.mp h
    exact ⟨w, List.mem_singleton.mpr rfl, rfl⟩

/-- A use of a variable is a part of the expression. -/
theorem exists_ident_of_uses {entry : Option Symbol} (h : .uses .local entry ∈ x.notes) :
    ∃ v, ident v ∈ x.parts ∧ v.entry = entry := by
  induction x with
  | list p es t ih | call p name es c t ih =>
    simp only [notes, List.mem_append, List.mem_singleton, mem_notesAll] at h
    grind [parts, mem_partsAll]
  | assign p op v x la ra t ih => grind [notes, parts, exists_target_of_uses]
  | incDec p d b v t =>
    obtain ⟨w, hw, hEntry⟩ := exists_target_of_uses h
    exact ⟨w, List.mem_cons_of_mem _ hw, hEntry⟩
  | _ => grind [notes, parts]

theorem fourth_congr (h : ∀ s, .uses .local (some s) ∈ x.notes → cs.constant? s = cs'.constant? s) :
    x.fourth cs = x.fourth cs' := by
  induction x with
  | ident v =>
    have hKnown : v.entry.bind cs.constant? = v.entry.bind cs'.constant? := by
      cases hEntry : v.entry with
      | none => rfl
      | some s => exact h s (by simp [notes, hEntry])
    simp only [fourth, hKnown]
  | unary p op x t ih => exact congrArg Single.neg (ih h)
  | paren p x t ih => exact ih h
  | _ => rfl

end Expr

namespace Constants

variable {cs : Constants} {e : Expr} {ds : List Diagnostic}

theorem Knows.infer (h : cs.Knows x) (hInfer : x.infer = .ok (e, ds)) : cs.Knows e := by
  unfold Knows
  rw [(Expr.infer_infers _ _ _ hInfer).notes]
  exact h

theorem constant?_append {s : Symbol} (h : cs.constant? s = some c) : constant? (cs ++ cs') s = some c := by
  unfold constant? at h ⊢
  split at h
  · next hKind => rw [if_pos hKind, List.lookup_append, h, Option.some_or]
  · cases h

/-- What is known of the variables of an expression is not overlaid by what was known before. -/
theorem Knows.append (cs' : Constants) (h : cs.Knows x) :
    ∀ s, .uses .local (some s) ∈ x.notes → constant? (cs ++ cs') s = cs.constant? s := by
  intro s hs
  obtain ⟨c, hc, _⟩ := h s hs
  rw [hc]
  exact constant?_append hc

end Constants

def GlobalVar.symbol (round i : Nat) (v : GlobalVar) : Symbol :=
  { name := v.name, kind := .global, ty := v.ty, index := i, round }

/-- Globals whose variables are numbered from `i` on, and whose initial values name only variables before
them or in `env`. -/
def Global.InOrder (round : Nat) : Nat → List Symbol → List Global → Prop
  | _, _, [] => True
  | i, env, .var v :: gs =>
    (∀ s, .uses .local (some s) ∈ v.init.notes → s ∈ env) ∧ v.entry = some (v.symbol round i) ∧
      InOrder round (i + 1) (v.symbol round i :: env) gs
  | i, env, _ :: gs => InOrder round i env gs

/-- A value of its type is known for each of the given variables, which have numbers below `i`. -/
def Constants.Cover (cs : Constants) (round i : Nat) (env : List Symbol) : Prop :=
  ∀ s ∈ env, (s.kind = .global ∧ s.round = round ∧ s.index < i) ∧
    ∃ c, cs.constant? s = some c ∧ c.value.ty = s.ty

namespace Constants

variable {round i : Nat} {env : List Symbol} {cs : Constants}

theorem cover_nil : Cover [] round 0 [] := fun _ h => nomatch h

theorem Cover.knows (h : cs.Cover round i env) (hUses : ∀ s, .uses .local (some s) ∈ x.notes →
    s ∈ env) :
    cs.Knows x :=
  fun s hs => (h s (hUses s hs)).2

/-- Once the value of the next variable is recorded, it is covered as well. -/
theorem Cover.record (h : cs.Cover round i env) (hTy : c.value.ty = v.ty) :
    Cover (((round, i), c) :: cs) round (i + 1) (v.symbol round i :: env) := by
  rintro s (_ | ⟨_, hs⟩)
  · refine ⟨⟨rfl, rfl, Nat.lt_succ_self i⟩, c, ?_, hTy⟩
    simp [constant?, GlobalVar.symbol]
  · obtain ⟨⟨hKind, hRound, hIndex⟩, d, hd, hType⟩ := h s hs
    have hOther : ((s.round, s.index) == (round, i)) = false := by
      simp [Nat.ne_of_lt hIndex]
    refine ⟨⟨hKind, hRound, Nat.lt_succ_of_lt hIndex⟩, d, ?_, hType⟩
    unfold constant? at hd ⊢
    rw [if_pos hKind] at hd ⊢
    rw [List.lookup_cons, hOther]
    exact hd

end Constants

namespace Script

variable {round i : Nat} {env : List Symbol} {gs os : List Global} {cs new : Constants}

theorem inOrder_of_bound (hBound : Global.BoundAll round env gs)
    (hNumbered : GlobalVar.NumberedFrom round i (gs.filterMap Global.var?)) :
    Global.InOrder round i env gs := by
  induction gs generalizing i env with
  | nil => trivial
  | cons g gs ih =>
    obtain ⟨hg, hgs⟩ := hBound
    cases g with
    | missing => exact ih hgs hNumbered
    | function f => exact ih hgs hNumbered
    | var v =>
      obtain ⟨hInit, index, hEntry⟩ := hg
      obtain ⟨⟨s, hs, _, rfl, _⟩, hRest⟩ := hNumbered
      cases hEntry.symm.trans hs
      refine ⟨fun s hs => ?_, hEntry, ?_⟩
      · obtain ⟨w, hw, hSymbol⟩ := Expr.exists_ident_of_uses hs
        obtain ⟨s', hs', hFind⟩ := hInit w hw
        cases hSymbol.symm.trans hs'
        exact List.mem_of_find?_eq_some hFind
      · rw [Global.varSymbol?, hEntry] at hgs
        exact ih hgs hRest

theorem inOrder_resolve {around : List Scope} {ds : List Diagnostic}
    (h : notedAll (resolveGlobal around) gs = .ok (os, ds)) (hNone : ds = [])
    (hOrder : Global.InOrder round i env gs) : Global.InOrder round i env os := by
  induction gs generalizing os ds i env with
  | nil =>
    cases h
    trivial
  | cons g gs ih =>
    simp only [notedAll, bind_eq_ok] at h
    obtain ⟨⟨o, da⟩, ho, ⟨os, db⟩, hos, h⟩ := h
    cases h
    obtain ⟨rfl, rfl⟩ := List.append_eq_nil_iff.mp hNone
    cases g with
    | missing =>
      cases ho
      exact @ih i env os [] hos rfl hOrder
    | function f =>
      simp only [resolveGlobal, bind_eq_ok, pure_eq_ok, Prod.mk.injEq] at ho
      obtain ⟨_, _, rfl, _⟩ := ho
      exact @ih i env os [] hos rfl hOrder
    | var v =>
      simp only [resolveGlobal, Except.ok.injEq, Prod.mk.injEq] at ho
      obtain ⟨rfl, hLink⟩ := ho
      obtain ⟨hUses, hEntry, hRest⟩ := hOrder
      have hLinks := (@Expr.link_assures (fun _ => True) _ (fun _ _ _ _ => trivial) v.init).holds hLink
      exact ⟨fun s hs => hUses s (hLinks.mem_variable hs), hEntry, ih hos rfl hRest⟩

def older {α : Type} (cs : Constants) (r : Noted (α × Constants)) : Noted (α × Constants) :=
  ((r.1.1, r.1.2 ++ cs), r.2)

theorem checkGlobalVar_older (h : new.Knows v.init) :
    checkGlobalVar (new ++ cs) v = (checkGlobalVar new v).map (older cs) := by
  have hRecord : ∀ (w : GlobalVar) (c : Constant),
      recordConstant (new ++ cs) w c = (recordConstant new w c).map (· ++ cs) := by
    intro w c
    unfold recordConstant
    cases w.entry <;> rfl
  unfold checkGlobalVar
  split
  · rw [hRecord]
    cases recordConstant new v ⟨.zero v.ty, .zero⟩ <;> rfl
  · cases hInfer : v.init.infer with
    | error e => rfl
    | ok r =>
      obtain ⟨init, ds⟩ := r
      have hSame := (h.infer hInfer).append cs
      simp only [ok_bind, Expr.fold_congr hSame, Expr.fourth_congr hSame, hRecord]
      cases ds with
      | cons => rfl
      | nil =>
        cases Ty.coercible v.ty init.ty with
        | false => rfl
        | true =>
          cases init.fold new with
          | none => rfl
          | some a =>
            cases hConvert : a.convert? v.ty with
            | none =>
              simp only [hConvert]
              rfl
            | some b =>
              simp only [hConvert, recordConstant]
              cases v.entry <;> rfl

/-- Globals in order are checked alike, whatever was known before the first of them. -/
theorem checkGlobals_older (cs : Constants)
    (hOrder : Global.InOrder round i env (gs ++ rest)) (hCover : new.Cover round i env) :
    checkGlobals (new ++ cs) gs = (checkGlobals new gs).map (older cs) := by
  induction gs generalizing new i env with
  | nil => rfl
  | cons g gs ih =>
    have hStep : checkGlobal (new ++ cs) g = (checkGlobal new g).map (older cs) ∧
        ∀ o n, checkGlobal new g = .ok ((o, n), []) →
          checkGlobals (n ++ cs) gs = (checkGlobals n gs).map (older cs) := by
      cases g with
      | missing =>
        refine ⟨rfl, fun o n h => ?_⟩
        cases h
        exact ih hOrder hCover
      | function f =>
        refine ⟨?_, fun o n h => ?_⟩
        · simp only [checkGlobal]
          cases checkBody f.result f.body <;> rfl
        · obtain ⟨_, _, _, rfl⟩ := checkGlobal_function.mp h
          exact ih hOrder hCover
      | var v =>
        obtain ⟨hUses, hEntry, hRest⟩ := hOrder
        refine ⟨?_, fun o n h => ?_⟩
        · simp only [checkGlobal, checkGlobalVar_older (hCover.knows hUses)]
          cases checkGlobalVar new v <;> rfl
        · obtain ⟨w, hw, _⟩ := checkGlobal_var.mp h
          obtain ⟨k, c, hk, rfl, hTy, _⟩ := checkGlobalVar_records hw
          cases hEntry.symm.trans hk
          exact ih hRest (hCover.record hTy)
    obtain ⟨hHead, hTail⟩ := hStep
    simp only [checkGlobals, hHead]
    cases hg : checkGlobal new g with
    | error e => rfl
    | ok r =>
      obtain ⟨⟨o, n⟩, ds⟩ := r
      cases ds with
      | cons => rfl
      | nil =>
        simp only [Except.map, older, ok_bind, List.isEmpty_nil, Bool.not_true, Bool.false_eq_true,
          if_false, hTail o n hg]
        cases checkGlobals n gs <;> rfl

/-- The variables before a global that the analysis reaches are covered by the values that it has
recorded. -/
theorem checkGlobals_cover {front os : List Global} {new' : Constants}
    (hOrder : Global.InOrder round i env (front ++ rest)) (hCover : new.Cover round i env)
    (h : checkGlobals new front = .ok ((os, new'), [])) :
    ∃ j, Global.InOrder round j ((front.filterMap Global.varSymbol?).reverse ++ env) rest ∧
      new'.Cover round j ((front.filterMap Global.varSymbol?).reverse ++ env) := by
  induction front generalizing new i env os with
  | nil =>
    cases h
    exact ⟨i, hOrder, hCover⟩
  | cons g front ih =>
    obtain ⟨o, os, cs₁, ho, hRest, rfl⟩ := checkGlobals_cons_nothing.mp h
    cases g with
    | missing =>
      cases ho
      exact ih hOrder hCover hRest
    | function f =>
      obtain ⟨_, _, _, rfl⟩ := checkGlobal_function.mp ho
      exact ih hOrder hCover hRest
    | var v =>
      obtain ⟨w, hw, _⟩ := checkGlobal_var.mp ho
      obtain ⟨hUses, hEntry, hOrder⟩ := hOrder
      obtain ⟨k, c, hk, rfl, hTy, _⟩ := checkGlobalVar_records hw
      cases hEntry.symm.trans hk
      have hNext := ih hOrder (hCover.record hTy) hRest
      simpa [Global.varSymbol?, hEntry] using hNext

theorem check_older (hOrder : Global.InOrder round 0 [] s.globals) (cs : Constants) :
    s.check cs = (s.check []).map (older cs) := by
  rw [← List.append_nil s.globals] at hOrder
  have hGlobals := checkGlobals_older cs hOrder Constants.cover_nil
  rw [List.nil_append] at hGlobals
  simp only [check, hGlobals]
  cases checkGlobals [] s.globals with
  | error e => rfl
  | ok r =>
    obtain ⟨⟨globals, new⟩, ds⟩ := r
    cases ds with
    | cons => rfl
    | nil =>
      simp only [Except.map, older, ok_bind, List.isEmpty_nil, Bool.not_true, Bool.false_eq_true,
        if_false]
      cases checkUntil checkState s.states <;> rfl

section accepted

/-- The globals of a script stand in order once its names are declared and resolved. -/
theorem inOrder_globals (hDeclare : s.declare visible round = (s₁, []))
    (hResolve : s₁.resolve = .ok (s₂, [])) : Global.InOrder round 0 [] s₂.globals := by
  have hDeclared := inOrder_of_bound ((declare_follows hDeclare).2 rfl).1 (declare_numbers hDeclare).1
  simp only [resolve, bind_eq_ok, pure_eq_ok, Prod.mk.injEq] at hResolve
  obtain ⟨⟨globals, dg⟩, hGlobals, ⟨states, dst⟩, _, rfl, hNone⟩ := hResolve
  exact inOrder_resolve hGlobals (List.append_eq_nil_iff.mp hNone).1 hDeclared

theorem globalVars_ty (hDeclare : s.declare visible round = (s₁, []))
    (hResolve : s₁.resolve = .ok (s₂, [])) :
    s₂.globalVars.map (·.ty) = s.globalVars.map (·.ty) := by
  rw [GlobalVar.map_ty_eq (resolve_heads hResolve)]
  obtain ⟨globals, d₁, _, _, _, hGlobals, hNone, _, _, _, rfl⟩ := declare_parts hDeclare
  exact (Declares.globals_numbered hGlobals hNone).2

/-- A global that the type analysis reaches: the variables in its initial value are known by the values
recorded before it, which can be stored. -/
theorem reached {front front' : List Global} {cs₁ : Constants}
    (hDeclare : s.declare visible round = (s₁, [])) (hResolve : s₁.resolve = .ok (s₂, []))
    (hSplit : s₂.globals = front ++ .var v :: rest)
    (hFront : checkGlobals cs front = .ok ((front', cs₁), [])) :
    ∃ new, cs₁ = new ++ cs ∧ new.Knows v.init ∧
      ((∀ w ∈ s.globalVars, w.ty.isValue = true) → new.Storable) := by
  have hOrder := inOrder_globals hDeclare hResolve
  rw [hSplit] at hOrder
  have hOlder := checkGlobals_older cs hOrder Constants.cover_nil
  rw [List.nil_append] at hOlder
  rw [hOlder, map_eq_ok] at hFront
  obtain ⟨⟨⟨front', new⟩, ds⟩, hFirst, hSame⟩ := hFront
  cases hSame
  obtain ⟨j, ⟨hUses, _⟩, hKnown⟩ := checkGlobals_cover hOrder Constants.cover_nil hFirst
  refine ⟨new, rfl, hKnown.knows hUses, fun hValues => ?_⟩
  refine (checkGlobals_records hFirst).storable (fun _ h => nomatch h) fun w hw => ?_
  have hMem : w ∈ s₂.globalVars := by
    change w ∈ s₂.globals.filterMap Global.var?
    rw [hSplit, List.filterMap_append]
    exact List.mem_append_left _ hw
  obtain ⟨u, hu, hTy⟩ := exists_of_map_eq (globalVars_ty hDeclare hResolve) hMem
  exact hTy ▸ hValues u hu

end accepted

/-- The symbol of a global in order is one of those covered. -/
theorem InOrder.entry (h : Global.InOrder round i env gs) (hv : v ∈ gs.filterMap Global.var?) :
    ∃ k, v.entry = some (v.symbol round k) ∧ v.symbol round k ∈ gs.filterMap Global.varSymbol? := by
  induction gs generalizing i env with
  | nil => cases hv
  | cons g gs ih =>
    cases g with
    | missing => exact ih h hv
    | function f => exact ih h hv
    | var w =>
      obtain ⟨_, hEntry, hRest⟩ := h
      have hSymbols : (Global.var w :: gs).filterMap Global.varSymbol? =
          w.symbol round i :: gs.filterMap Global.varSymbol? := by
        simp [Global.varSymbol?, hEntry]
      rw [hSymbols]
      obtain rfl | hv := List.mem_cons.mp hv
      · exact ⟨i, hEntry, List.mem_cons_self⟩
      · obtain ⟨k, hk, hMem⟩ := ih hRest hv
        exact ⟨k, hk, List.mem_cons_of_mem _ hMem⟩

/-- Folding agrees with the inference of types. In a script with globals of value types in whose names no
error is found, take the initial value of a global that the type analysis reaches and finds nothing wrong
with. If it folds, then to a value of the type noted for it, which can be stored and converts to each type
that this type is coercible to; so the only mismatch that is ever reported is that of the types. An analysis
without errors leaves each global with a known initial value of exactly its type. -/
theorem check_constants_agree {ds₁ ds₂ : List Diagnostic}
    (hDeclare : s.declare visible round = (s₁, ds₁))
    (hDeclared : Diagnostic.failed ds₁ = false) (hResolve : s₁.resolve = .ok (s₂, ds₂))
    (hResolved : Diagnostic.failed ds₂ = false) (hValues : ∀ v ∈ s.globalVars, v.ty.isValue = true)
    (cs : Constants) :
    (∀ front v rest front' cs₁ e, s₂.globals = front ++ .var v :: rest →
      checkGlobals cs front = .ok ((front', cs₁), []) → v.init.infer = .ok (e, []) →
      (∀ a, e.fold cs₁ = some a → a.ty = e.ty ∧ a.Storable ∧
        ∀ t, Ty.coercible t a.ty = true → ∃ b, a.convert? t = some b ∧ b.ty = t) ∧
      ∀ r ds, checkGlobalVar cs₁ v = .ok (r, ds) → (∃ d ∈ ds, d.kind = .typeMismatch) →
        Ty.coercible v.ty e.ty = false) ∧
    ∀ s₃ cs' ds, s₂.check cs = .ok ((s₃, cs'), ds) → Diagnostic.failed ds = false →
      ∀ v ∈ s₃.globalVars, ∃ k c, v.entry = some k ∧ cs'.constant? k = some c ∧
        c.value.ty = v.ty := by
  obtain rfl := Session.eq_nil_of_not_failed (declare_declared hDeclare).1 hDeclared
  obtain rfl := Session.eq_nil_of_not_failed (resolve_errors hResolve) hResolved
  constructor
  · intro front v rest front' cs₁ e hSplit hFront hInfer
    obtain ⟨new, rfl, hKnows, hStorable⟩ := reached hDeclare hResolve hSplit hFront
    have hTyped := Expr.infer_infers _ _ _ hInfer
    have hKnown := hKnows.infer hInfer
    have hFold : e.fold (new ++ cs) = e.fold new := Expr.fold_congr (hKnown.append cs)
    have hAgrees := Expr.fold_agrees e (hTyped.found.holds rfl) hKnown
    rw [hFold]
    refine ⟨fun a ha => ⟨hAgrees a ha, ?_, fun t => Value.convert?_of_coercible⟩, ?_⟩
    · exact Expr.fold_storable (hStorable hValues) e a ha
    · rintro ⟨w, cs₂⟩ ds hVar ⟨d, hd, hKind⟩
      cases checkGlobalVar_outcome hVar with
      | zero | value => cases hd
      | found hOther hFound =>
        cases hInfer.symm.trans hOther
        exact absurd rfl hFound
      | unfit hOther hFits =>
        cases hInfer.symm.trans hOther
        exact hFits
      | unfolded =>
        cases List.mem_singleton.mp hd
        cases hKind
      | unconverted hOther hFits hSome hConvert =>
        -- the value has the type noted for it, so it converts
        cases hInfer.symm.trans hOther
        rw [hFold] at hSome
        rw [← hAgrees _ hSome] at hFits
        obtain ⟨b, hb, _⟩ := Value.convert?_of_coercible hFits
        cases hConvert.symm.trans hb
  · intro s₃ cs' ds hCheck hFailed v hv
    obtain rfl := Session.eq_nil_of_not_failed (check_checked hCheck).1 hFailed
    have hOrder := inOrder_globals hDeclare hResolve
    rw [check_older hOrder, map_eq_ok] at hCheck
    obtain ⟨⟨⟨t, new⟩, ds⟩, hCheck, hSame⟩ := hCheck
    cases hSame
    obtain ⟨globals, states, hGlobals, _, rfl⟩ := check_parts hCheck
    have hNumbered : GlobalVar.NumberedFrom round 0 s₂.globalVars := by
      rw [← GlobalVar.numberedFrom_head, resolve_heads hResolve, GlobalVar.numberedFrom_head]
      exact (declare_numbers hDeclare).1
    obtain ⟨u, hu, hHead⟩ := exists_of_map_eq (heads_of_forget (checkGlobals_keeps hGlobals)) hv
    have hEntry : v.head.entry = u.head.entry := by rw [hHead]
    have hTy : u.head.ty = v.head.ty := by rw [hHead]
    obtain ⟨k, hk, hMem⟩ := InOrder.entry hOrder hu
    rw [← List.append_nil s₂.globals] at hOrder
    obtain ⟨j, _, hCover⟩ := checkGlobals_cover hOrder Constants.cover_nil hGlobals
    obtain ⟨⟨hKind, _⟩, c, hc, hType⟩ := hCover _ (by simpa using hMem)
    exact ⟨_, c, hEntry.trans hk, Constants.constant?_append hc, hType.trans hTy⟩

/-- The globals `integer n = 3; float f = n; vector v = <n, -f, v0.x>; list l = [n, v];`, behind a vector `v0`
without an initial value, and a handler `state_entry() { if (n) v = v * f; }`. -/
def counting : Script :=
  let var (n member : String) : Ident := { pos := {}, name := n, member }
  let global (ty : Ty) (n : String) (init : Expr) : Global := .var { pos := {}, name := n, ty, init }
  let n : Expr := .ident (var "n" "")
  let f : Expr := .ident (var "f" "")
  let v : Expr := .ident (var "v" "")
  let grow : Expr :=
    .assign {} .none (some (var "v" "")) (.binary {} .mul v f .void .void .void) .void .void .void
  let entry : Handler :=
    { pos := {}
      name := "state_entry"
      params := []
      body := some { pos := {}, stmts := [.ifThen {} n none (.expr {} grow) none .missing] } }
  { pos := {}
    globals :=
      [global .vector "v0" .missing, global .integer "n" (.int {} 3 .void), global .float "f" n,
       global .vector "v" (.vector {} n (.unary {} .neg f .void) (.ident (var "v0" "x")) .void),
       global .list "l" (.list {} [n, v] .void)]
    states := [some { pos := {}, name := "default", events := [some entry] }] }

theorem eq_ok_of_toOption {ε α : Type} {x : Except ε α} {a : α} (h : x.toOption = some a) :
    x = .ok a := by
  cases x with
  | error e => cases h
  | ok b =>
    cases h
    rfl

/-- Nothing is found in the example, which has five globals. -/
theorem counting_accepted : ∃ s₁ s₂ s₃ cs, counting.declare [] 0 = (s₁, []) ∧ s₁.resolve = .ok
    (s₂, []) ∧
    s₂.check [] = .ok ((s₃, cs), []) ∧ s₃.globalVars.length = 5 := by
  have hRun : (counting.declare [] 0).2.isEmpty = true ∧
      ((counting.declare [] 0).1.resolve.toOption.bind fun r => (r.1.check []).toOption.map fun q =>
        (r.2.isEmpty, q.2.isEmpty, q.1.1.globalVars.length)) = some (true, true, 5) := by decide +kernel
  obtain ⟨hNone, hRun⟩ := hRun
  cases hDeclare : counting.declare [] 0 with
  | mk s₁ ds₁ =>
    rw [hDeclare] at hNone hRun
    obtain rfl : ds₁ = [] := List.isEmpty_iff.mp hNone
    simp only [Option.bind_eq_some_iff, Option.map_eq_some_iff, Prod.mk.injEq, List.isEmpty_iff] at hRun
    obtain ⟨⟨s₂, ds₂⟩, hResolve, ⟨⟨s₃, cs⟩, ds₃⟩, hCheck, rfl, rfl, hCount⟩ := hRun
    exact ⟨s₁, s₂, s₃, cs, rfl, eq_ok_of_toOption hResolve, eq_ok_of_toOption hCheck, hCount⟩

/-- All five globals of the example get a value of their type. -/
theorem check_constants_agree_counting :
    ∃ s₁ s₂ s₃ cs, counting.declare [] 0 = (s₁, []) ∧ s₁.resolve = .ok (s₂, []) ∧
      s₂.check [] = .ok ((s₃, cs), []) ∧ s₃.globalVars.length = 5 ∧
      ∀ v ∈ s₃.globalVars, ∃ k c, v.entry = some k ∧ cs.constant? k = some c ∧
        c.value.ty = v.ty := by
  obtain ⟨s₁, s₂, s₃, cs, hDeclare, hResolve, hCheck, hCount⟩ := counting_accepted
  refine ⟨s₁, s₂, s₃, cs, hDeclare, hResolve, hCheck, hCount, ?_⟩
  exact (check_constants_agree hDeclare rfl hResolve rfl (by decide +kernel) []).2 s₃ cs [] hCheck rfl

end Script
end Lsl
