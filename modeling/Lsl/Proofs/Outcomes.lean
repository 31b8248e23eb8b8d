import Lsl.Diagnostic
import Mathlib.Data.List.Forall2

/-! Computations that may fail, computations that change a state, steps over lists, and analyses that report
errors. A computation that succeeds is taken apart into steps that succeed. -/
namespace Lsl

open List

variable {ε α β γ : Type} {m : Except ε α} {f : α → Except ε β} {a : α} {b : β} {as : List α}
  {bs : List β}
  {R : α → β → Prop}

/-- A computation that succeeds has succeeded at its first step and then at the rest. -/
theorem bind_eq_ok : (m >>= f) = .ok b ↔ ∃ a, m = .ok a ∧ f a = .ok b := by
  cases m with
  | error e => simp [Bind.bind, Except.bind]
  | ok a => simp [Bind.bind, Except.bind]

/-- A computation succeeds if its first step does, and the rest whatever the first step gives. -/
theorem bind_succeeds (hm : ∃ a, m = .ok a) (hf : ∀ a, ∃ b, f a = .ok b) : ∃ b, (m >>= f) = .ok b :=
    by
  obtain ⟨a, rfl⟩ := hm
  exact hf a

/-- A computation that fails has failed at its first step or at the rest. -/
theorem bind_eq_error {e : ε} :
    (m >>= f) = .error e ↔ m = .error e ∨ ∃ a, m = .ok a ∧ f a = .error e := by
  cases m with
  | error e' => simp [Bind.bind, Except.bind]
  | ok a => simp [Bind.bind, Except.bind]

theorem ok_bind (a : α) (f : α → Except ε β) : (Except.ok a >>= f) = f a := rfl

theorem pure_ok (a : α) : (pure a : Except ε α) = .ok a := rfl

theorem pure_eq_ok {b : α} : (pure a : Except ε α) = .ok b ↔ a = b := by
  simp [Pure.pure, Except.pure]

theorem map_eq_ok {f : α → β} : m.map f = .ok b ↔ ∃ a, m = .ok a ∧ f a = b := by
  cases m <;> simp [Except.map]

theorem mapM_eq_ok : as.mapM f = .ok bs ↔ Forall₂ (fun a b => f a = .ok b) as bs := by
  induction as generalizing bs with
  | nil =>
    rw [mapM_nil, pure_eq_ok, forall₂_nil_left_iff, eq_comm]
  | cons a as ih =>
    rw [mapM_cons, forall₂_cons_left_iff]
    simp only [bind_eq_ok, pure_eq_ok, ih]
    constructor
    · rintro ⟨b, hb, bs', hbs, rfl⟩
      exact ⟨b, bs', hb, hbs, rfl⟩
    · rintro ⟨b, bs', hb, hbs, rfl⟩
      exact ⟨b, hb, bs', hbs, rfl⟩

/-- Steps over a list fail when one of them does and those before it succeed. -/
theorem mapM_eq_error {e : ε} :
    as.mapM f = .error e ↔ ∃ before a after bs,
      as = before ++ a :: after ∧ before.mapM f = .ok bs ∧ f a = .error e := by
  induction as with
  | nil => simp [mapM_nil, pure_ok]
  | cons a as ih =>
    simp only [mapM_cons, bind_eq_error, ih, pure_ok, reduceCtorEq, and_false, exists_false,
      or_false]
    constructor
    · rintro (ha | ⟨b, hb, before, a', after, bs, rfl, hbs, ha'⟩)
      · exact ⟨[], a, as, [], rfl, rfl, ha⟩
      · refine ⟨a :: before, a', after, b :: bs, rfl, ?_, ha'⟩
        rw [mapM_eq_ok] at hbs ⊢
        exact .cons hb hbs
    · rintro ⟨before, a', after, bs, hSplit, hbs, ha'⟩
      cases before with
      | nil =>
        cases hSplit
        exact .inl ha'
      | cons x before =>
        cases hSplit
        rw [mapM_eq_ok] at hbs
        cases hbs with
        | cons hb hbs => exact .inr ⟨_, hb, before, a', after, _, rfl, mapM_eq_ok.mpr hbs, ha'⟩

theorem mapM_succeeds (h : ∀ a ∈ as, ∃ b, f a = .ok b) : ∃ bs, as.mapM f = .ok bs := by
  induction as with
  | nil => exact ⟨[], rfl⟩
  | cons a as ih =>
    obtain ⟨b, hb⟩ := h a (by simp)
    obtain ⟨bs, hbs⟩ := ih fun x hx => h x (by simp [hx])
    rw [mapM_eq_ok] at hbs
    exact ⟨b :: bs, mapM_eq_ok.mpr (.cons hb hbs)⟩

/-- What stands in the second of two related lists is related to something in the first. -/
theorem exists_of_mem_right (h : Forall₂ R as bs) (hb : b ∈ bs) : ∃ a ∈ as, R a b := by
  induction h with
  | nil => cases hb
  | cons hHead _ ih =>
    rcases List.mem_cons.mp hb with rfl | hb
    · exact ⟨_, by simp, hHead⟩
    · obtain ⟨a, ha, hR⟩ := ih hb
      exact ⟨a, by simp [ha], hR⟩

/-- What stands in the first of two related lists is related to something in the second. -/
theorem exists_of_mem_left (h : Forall₂ R as bs) (ha : a ∈ as) : ∃ b ∈ bs, R a b :=
  exists_of_mem_right (R := fun b a => R a b) (List.Forall₂.flip h) ha

/-- Steps over a list succeed with results of a kind when each step has such a result. -/
theorem exists_mapM {R : β → γ → Prop} {cs : List γ}
    (h : Forall₂ (fun a c => ∃ b, f a = .ok b ∧ R b c) as cs) :
    ∃ bs, as.mapM f = .ok bs ∧ Forall₂ R bs cs := by
  induction h with
  | nil => exact ⟨[], rfl, .nil⟩
  | cons hHead _ ih =>
    obtain ⟨b, hb, hR⟩ := hHead
    obtain ⟨bs, hbs, hRs⟩ := ih
    refine ⟨b :: bs, ?_, .cons hR hRs⟩
    rw [mapM_eq_ok] at hbs ⊢
    exact .cons hb hbs

/-- What holds of related elements holds along two related lists, also where it is known of the second
one only. -/
theorem forall₂_imp_right {S : α → β → Prop} (h : Forall₂ R as bs)
    (hImp : ∀ b ∈ bs, ∀ a, R a b → S a b) : Forall₂ S as bs := by
  induction h with
  | nil => exact .nil
  | cons hHead _ ih =>
    exact .cons (hImp _ (by simp) _ hHead) (ih fun b hb => hImp b (by simp [hb]))

/-- What stands in the first of two lists with the same image has its fellow in the second. -/
theorem exists_of_map_eq {f : α → γ} {g : β → γ} (h : as.map f = bs.map g) (ha : a ∈ as) :
    ∃ b ∈ bs, g b = f a := by
  have hMem : f a ∈ bs.map g := h ▸ mem_map_of_mem ha
  exact List.mem_map.mp hMem

/-- What each of two related elements has in common, their lists have in common. -/
theorem map_eq_of_forall₂ {f : α → γ} {g : β → γ} (h : Forall₂ R as bs)
    (hSame : ∀ a b, R a b → g b = f a) : bs.map g = as.map f := by
  induction h with
  | nil => rfl
  | cons hHead _ ih => rw [map_cons, map_cons, hSame _ _ hHead, ih]

theorem forall₂_of_getElem (hLength : as.length = bs.length)
    (h : ∀ i (ha : i < as.length) (hb : i < bs.length), R as[i] bs[i]) : Forall₂ R as bs :=
  List.forall₂_iff_get.mpr ⟨hLength, h⟩

theorem getElem_forall₂ (h : Forall₂ R as bs) {i : Nat} (ha : i < as.length)
    (hb : i < bs.length) : R as[i] bs[i] :=
  (List.forall₂_iff_get.mp h).2 i ha hb

section states

variable {σ : Type} {d d' : σ}

/-- A computation that is made of two has done the first and then the second. -/
theorem state_bind_eq {m : StateM σ α} {f : α → StateM σ β} {d'' : σ} :
    (m >>= f) d = (b, d'') ↔ ∃ a d', m d = (a, d') ∧ f a d' = (b, d'') := by
  constructor
  · intro h
    exact ⟨(m d).1, (m d).2, rfl, h⟩
  · rintro ⟨a, d', hm, hf⟩
    change f (m d).1 (m d).2 = _
    rw [hm]
    exact hf

theorem state_pure_eq {b : α} : (pure a : StateM σ α) d = (b, d') ↔ a = b ∧ d = d' := by
  change (a, d) = (b, d') ↔ _
  rw [Prod.mk.injEq]

theorem state_get_eq {a : σ} : (get : StateM σ σ) d = (a, d') ↔ d = a ∧ d = d' := by
  change (d, d) = (a, d') ↔ _
  rw [Prod.mk.injEq]

theorem state_set_eq {e : σ} {u : PUnit} : (set e : StateM σ PUnit) d = (u, d') ↔ e = d' := by
  change (PUnit.unit, e) = (u, d') ↔ _
  simp

theorem state_mapM_cons {f : α → StateM σ β} {as : List α} {bs : List β} :
    (a :: as).mapM f d = (bs, d') ↔
    ∃ b d₁ rest, f a d = (b, d₁) ∧ as.mapM f d₁ = (rest, d') ∧ b :: rest = bs := by
  simp only [mapM_cons, state_bind_eq, state_pure_eq]
  grind

end states

/-- What is found are errors, and `P` holds if nothing is. -/
structure Assures (ds : List Diagnostic) (P : Prop) : Prop where
  errors : ∀ d ∈ ds, d.isError = true
  holds : ds = [] → P

namespace Assures

variable {ds ds' : List Diagnostic} {failed failed' : Bool} {P Q : Prop}

theorem nothing (h : P) : Assures [] P := ⟨by simp, fun _ => h⟩

theorem imp (h : Assures ds P) (hImp : P → Q) : Assures ds Q :=
  ⟨h.errors, fun hNone => hImp (h.holds hNone)⟩

theorem append (h : Assures ds P) (h' : Assures ds' Q) : Assures (ds ++ ds') (P ∧ Q) := by
  refine ⟨by simpa [or_imp, forall_and] using ⟨h.errors, h'.errors⟩, fun hNone => ?_⟩
  obtain ⟨hFirst, hSecond⟩ := List.append_eq_nil_iff.mp hNone
  exact ⟨h.holds hFirst, h'.holds hSecond⟩

/-- An analysis goes on, and does less if something was found. -/
theorem andThen (h : Assures ds (failed = false → P)) (h' : Assures ds' (failed' = false → Q))
    (hFailed : failed = false → ds = [] → failed' = false :=
      by intro h hNone; simpa [h, and_assoc] using hNone) :
    Assures (ds ++ ds') (failed = false → P ∧ Q) := by
  refine ⟨(h.append h').errors, fun hNone hPassed => ?_⟩
  obtain ⟨hFirst, hSecond⟩ := List.append_eq_nil_iff.mp hNone
  exact ⟨h.holds hFirst hPassed, h'.holds hSecond (hFailed hPassed hFirst)⟩

end Assures

end Lsl
