import Lsl.Proofs.Emitted

/-! Literals of vectors, rotations and lists under two sets of initial values. A literal that can be
folded becomes one constant, with each global in it taken at its initial value; all other code reads
globals when it runs. So the code of a body under the two sets differs at most in such constants. -/
namespace Lsl

open List

variable {o o' : Option Value}

variable {v w : Value} {x : Expr} {es : List Expr}

/-- Initial values of the same types for the same globals. -/
def Constants.Alike (cs cs' : Constants) : Prop :=
  ∀ s, (cs.constant? s).map (·.value.ty) = (cs'.constant? s).map (·.value.ty)

namespace Value

theorem neg?_ty (h : v.ty = w.ty) : v.neg?.map ty = w.neg?.map ty := by
  cases v <;> cases w <;> first | rfl | cases h

theorem toComponent?_isSome (h : v.ty = w.ty) : v.toComponent?.isSome = w.toComponent?.isSome := by
  cases v <;> cases w <;> first | (cases h; done) | simp [toComponent?]

theorem neg?_injective {u : Value} (hv : v.neg? = some u) (hw : w.neg? = some u) : v = w := by
  have hSign : ∀ x y : Single, x.neg = y.neg → x = y := by
    rintro ⟨x⟩ ⟨y⟩ h
    simpa [Single.neg] using h
  cases v <;> cases w <;> grind [neg?]

/-- Two values that may both be missing have the same type. -/
theorem map_ty_cases (h : o.map ty = o'.map ty) :
    (o = none ∧ o' = none) ∨ ∃ v w, o = some v ∧ o' = some w ∧ v.ty = w.ty := by
  cases o <;> cases o' <;> simp_all

theorem bind_ty {α : Type} {o o' : Option α} {f f' : α → Option Value} (h : o.isSome = o'.isSome)
    (hf : ∀ a b, (f a).map ty = (f' b).map ty) : (o.bind f).map ty = (o'.bind f').map ty := by
  cases o with
  | none => cases o' <;> simp_all
  | some a =>
    cases o' with
    | none => cases h
    | some b => exact hf a b

theorem component_isSome (h : o.map ty = o'.map ty) :
    (o.bind toComponent?).isSome = (o'.bind toComponent?).isSome := by
  obtain ⟨rfl, rfl⟩ | ⟨v, w, rfl, rfl, hTy⟩ := map_ty_cases h
  · rfl
  · exact toComponent?_isSome hTy

end Value

theorem Constant.component?_ty {c d : Constant} (h : c.value.ty = d.value.ty) (member : String) :
    (c.component? member).map Value.ty = (d.component? member).map Value.ty := by
  unfold component?
  cases componentIndex? member with
  | none => rfl
  | some i =>
    cases hc : c.value <;> cases hd : d.value <;> rw [hc, hd] at h <;> first | rfl | cases h

namespace Expr

variable {cs cs' : Constants}

theorem foldAll_isSome (ih : ∀ x ∈ es, (x.fold cs).map Value.ty = (x.fold cs').map Value.ty) :
    (foldAll cs es).isSome = (foldAll cs' es).isSome := by
  induction es with
  | nil => rfl
  | cons x es ihList =>
    have hTail := ihList fun y hy => ih y (by simp [hy])
    simp only [foldAll]
    obtain ⟨hx, hx'⟩ | ⟨v, w, hx, hx', hTy⟩ := Value.map_ty_cases (ih x (by simp))
    · simp [hx, hx']
    · have hElement : isElement v = isElement w := by simp [isElement, hTy]
      simp only [hx, hx', Option.filter_some, hElement]
      cases isElement w with
      | false => rfl
      | true => cases hv : foldAll cs es <;> cases hw : foldAll cs' es <;> simp_all

/-- Whether an expression can be folded, and to what type, does not depend on the initial values. -/
theorem fold_ty (h : cs.Alike cs') (x : Expr) :
    (x.fold cs).map Value.ty = (x.fold cs').map Value.ty := by
  induction x with
  | paren p x t ih => exact ih
  | unary p op x t ih =>
    simp only [fold]
    split
    · obtain ⟨hx, hx'⟩ | ⟨v, w, hx, hx', hTy⟩ := Value.map_ty_cases ih
      · rw [hx, hx']
      · rw [hx, hx']
        exact Value.neg?_ty hTy
    · rfl
  | ident v =>
    simp only [fold]
    cases v.entry with
    | none => rfl
    | some s =>
      have hs := h s
      simp only [Option.bind_some]
      cases hc : cs.constant? s <;> cases hd : cs'.constant? s <;> rw [hc, hd] at hs <;>
        simp only [Option.map_some, Option.map_none, Option.some.injEq, reduceCtorEq] at hs ⊢
      split
      · simpa using hs
      · exact Constant.component?_ty hs v.member
  | vector p x y z t ihx ihy ihz =>
    exact Value.bind_ty (Value.component_isSome ihx) fun _ _ =>
      Value.bind_ty (Value.component_isSome ihy) fun _ _ =>
        Value.bind_ty (Value.component_isSome ihz) fun _ _ => rfl
  | rotation p x y z s t ihx ihy ihz ihs =>
    exact Value.bind_ty (Value.component_isSome ihx) fun _ _ =>
      Value.bind_ty (Value.component_isSome ihy) fun _ _ =>
        Value.bind_ty (Value.component_isSome ihz) fun _ _ =>
          Value.bind_ty (Value.component_isSome ihs) fun _ _ => rfl
  | list p es t ih =>
    have hAll := foldAll_isSome ih
    simp only [fold]
    cases hv : foldAll cs es <;> cases hw : foldAll cs' es <;> simp_all [Value.ty]
  | _ => rfl

/-- A number is not made of literals. -/
theorem not_isLiteral_of_component {a : Single} (hFold : x.fold cs = some v)
    (hNumber : v.toComponent? = some a) : ∀ y ∈ x.parts, y.isLiteral = false := by
  induction x generalizing v a with
  | paren p x t ih =>
    have hInner := ih hFold hNumber
    simpa [parts, isLiteral] using hInner
  | unary p op x t ih =>
    simp only [fold] at hFold
    split at hFold
    · obtain ⟨w, hw, hNeg⟩ := Option.bind_eq_some_iff.mp hFold
      have hOperand : ∃ b, w.toComponent? = some b := by
        cases w <;> cases hNeg <;> first | exact ⟨_, rfl⟩ | cases hNumber
      obtain ⟨b, hb⟩ := hOperand
      simpa [parts, isLiteral] using ih hw hb
    · cases hFold
  | vector p x y z t =>
    simp only [fold, Option.bind_eq_bind, Option.bind_eq_some_iff] at hFold
    obtain ⟨_, _, _, _, _, _, hv⟩ := hFold
    cases hv
    cases hNumber
  | rotation p x y z s t =>
    simp only [fold, Option.bind_eq_bind, Option.bind_eq_some_iff] at hFold
    obtain ⟨_, _, _, _, _, _, _, _, hv⟩ := hFold
    cases hv
    cases hNumber
  | list p es t =>
    obtain ⟨_, _, rfl⟩ := Option.map_eq_some_iff.mp hFold
    cases hNumber
  | int p n t | float p n t | string p n t | ident v => simp [parts, isLiteral]
  | _ => cases hFold

theorem foldAll_mem {vs : List Value} (h : foldAll cs es = some vs)
    (h' : foldAll cs' es = some vs) : ∀ x ∈ es, ∃ v, x.fold cs = some v ∧ x.fold cs' = some v := by
  induction es generalizing vs with
  | nil => simp
  | cons x es ih =>
    simp only [foldAll, Option.bind_eq_bind, Option.bind_eq_some_iff,
      Option.filter_eq_some_iff] at h h'
    obtain ⟨v, ⟨hx, _⟩, ws, hes, hvs⟩ := h
    obtain ⟨v', ⟨hx', _⟩, ws', hes', hvs'⟩ := h'
    cases hvs
    cases hvs'
    simpa using ⟨⟨v, hx, hx'⟩, ih hes hes'⟩

/-- Where two foldings of an expression give the same value, so do those of the literals in it. -/
theorem fold_eq_of_mem (h : x.fold cs = some v) (h' : x.fold cs' = some v) :
    ∀ y ∈ x.parts, y.isLiteral = true → y.fold cs = y.fold cs' := by
  induction x generalizing v with
  | paren p x t ih =>
    have hInner := ih h h'
    simpa [parts, isLiteral] using hInner
  | unary p op x t ih =>
    simp only [fold] at h h'
    split at h
    · rename_i hOp
      simp only [hOp, if_true] at h'
      obtain ⟨w, hw, hNeg⟩ := Option.bind_eq_some_iff.mp h
      obtain ⟨w', hw', hNeg'⟩ := Option.bind_eq_some_iff.mp h'
      obtain rfl := Value.neg?_injective hNeg hNeg'
      simpa [parts, isLiteral] using ih hw hw'
    · cases h
  | vector p x y z t =>
    have hSelf := h.trans h'.symm
    obtain ⟨a, hA, h⟩ := Option.bind_eq_some_iff.mp h
    obtain ⟨b, hB, h⟩ := Option.bind_eq_some_iff.mp h
    obtain ⟨c, hC, h⟩ := Option.bind_eq_some_iff.mp h
    obtain ⟨u, hu, ha⟩ := Option.bind_eq_some_iff.mp hA
    obtain ⟨w, hw, hb⟩ := Option.bind_eq_some_iff.mp hB
    obtain ⟨r, hr, hc⟩ := Option.bind_eq_some_iff.mp hC
    have hX := not_isLiteral_of_component hu ha
    have hY := not_isLiteral_of_component hw hb
    have hZ := not_isLiteral_of_component hr hc
    intro q hq hLiteral
    simp only [parts, mem_cons, mem_append] at hq
    grind
  | rotation p x y z s t =>
    have hSelf := h.trans h'.symm
    obtain ⟨a, hA, h⟩ := Option.bind_eq_some_iff.mp h
    obtain ⟨b, hB, h⟩ := Option.bind_eq_some_iff.mp h
    obtain ⟨c, hC, h⟩ := Option.bind_eq_some_iff.mp h
    obtain ⟨d, hD, h⟩ := Option.bind_eq_some_iff.mp h
    obtain ⟨u, hu, ha⟩ := Option.bind_eq_some_iff.mp hA
    obtain ⟨w, hw, hb⟩ := Option.bind_eq_some_iff.mp hB
    obtain ⟨r, hr, hc⟩ := Option.bind_eq_some_iff.mp hC
    obtain ⟨q, hq, hd⟩ := Option.bind_eq_some_iff.mp hD
    have hX := not_isLiteral_of_component hu ha
    have hY := not_isLiteral_of_component hw hb
    have hZ := not_isLiteral_of_component hr hc
    have hS := not_isLiteral_of_component hq hd
    intro m hm hLiteral
    simp only [parts, mem_cons, mem_append] at hm
    grind
  | list p es t ih =>
    have hSelf := h.trans h'.symm
    obtain ⟨vs, hvs, rfl⟩ := Option.map_eq_some_iff.mp h
    obtain ⟨ws, hws, hEq⟩ := Option.map_eq_some_iff.mp h'
    cases hEq
    intro q hq hLiteral
    simp only [parts, mem_cons, mem_partsAll] at hq
    obtain rfl | ⟨x, hx, hq⟩ := hq
    · exact hSelf
    · obtain ⟨w, hw, hw'⟩ := foldAll_mem hvs hws x hx
      exact ih x hx hw hw' q hq hLiteral
  | int p n t | float p n t | string p n t | ident v => simp [parts, isLiteral]
  | _ => cases h

theorem foldAll_congr (ih : ∀ x ∈ es, x.fold cs = x.fold cs') : foldAll cs es = foldAll cs' es := by
  induction es with
  | nil => rfl
  | cons x es ihList =>
    simp only [foldAll, ih x (by simp), ihList fun y hy => ih y (by simp [hy])]

/-- Only what is known of the variables that are named is looked up. -/
theorem fold_congr (h : ∀ s, .uses .local (some s) ∈ x.notes → cs.constant? s = cs'.constant? s) :
    x.fold cs = x.fold cs' := by
  induction x with
  | paren p x t ih => exact ih h
  | unary p op x t ih => simp only [fold, ih h]
  | ident v =>
    have hKnown : v.entry.bind cs.constant? = v.entry.bind cs'.constant? := by
      cases hEntry : v.entry with
      | none => rfl
      | some s => exact h s (by simp [notes, hEntry])
    simp only [fold, hKnown]
  | vector p x y z t ihx ihy ihz =>
    simp only [notes, mem_append, or_imp, forall_and] at h
    simp only [fold, ihx h.1.1, ihy h.1.2, ihz h.2]
  | rotation p x y z s t ihx ihy ihz ihs =>
    simp only [notes, mem_append, or_imp, forall_and] at h
    simp only [fold, ihx h.1.1.1, ihy h.1.1.2, ihz h.1.2, ihs h.2]
  | list p es t ih =>
    have hEach : ∀ x ∈ es, x.fold cs = x.fold cs' := fun x hx =>
      ih x hx fun s hs => h s (mem_notesAll.mpr ⟨x, hx, hs⟩)
    simp only [fold, foldAll_congr hEach]
  | _ => rfl

/-- What names no global does not depend on initial values. -/
theorem fold_local (h : ¬ x.MentionsGlobal) : x.fold cs = x.fold cs' := by
  apply fold_congr
  intro s hs
  have hKind : s.kind ≠ .global := fun hKind => h ⟨s, hs, hKind⟩
  rw [Constants.constant?, Constants.constant?, if_neg hKind, if_neg hKind]

end Expr

/-- The same instruction, or the pushes of what two sets of initial values make of one literal among some
expressions. The two constants have the same type. -/
def Instr.Akin (cs cs' : Constants) (xs : List Expr) (i j : Instr) : Prop :=
  i = j ∨ ∃ x ∈ xs, x.isLiteral = true ∧ ∃ v w, x.fold cs = some v ∧ x.fold cs' = some w ∧
    i = .pushConst v ∧ j = .pushConst w ∧ v.ty = w.ty

/-- Code under two sets of initial values: it differs at most in the constants that are pushed for literals
among some expressions, and it is the same if and only if the two sets give these literals the same values. -/
structure Twin (cs cs' : Constants) (xs : List Expr) (c c' : List Instr) : Prop where
  akin : Forall₂ (Instr.Akin cs cs' xs) c c'
  equal : c = c' ↔ ∀ x ∈ xs, x.isLiteral = true → x.fold cs = x.fold cs'

namespace Twin

variable {cs cs' : Constants} {xs ys : List Expr} {c c' d d' : List Instr}

/-- The literals may be looked for among more expressions. -/
theorem akin_mono (h : Twin cs cs' xs c c') (hSubset : xs ⊆ ys) :
    Forall₂ (Instr.Akin cs cs' ys) c c' := by
  refine h.akin.imp fun i j hAkin => ?_
  rcases hAkin with rfl | ⟨x, hx, hLiteral⟩
  · exact .inl rfl
  · exact .inr ⟨x, hSubset hx, hLiteral⟩

theorem same (c : List Instr) : Twin cs cs' [] c c :=
  ⟨List.forall₂_same.mpr fun _ _ => Or.inl rfl, by simp⟩

theorem append (h : Twin cs cs' xs c c') (hd : Twin cs cs' ys d d') :
    Twin cs cs' (xs ++ ys) (c ++ d) (c' ++ d') := by
  refine ⟨rel_append (h.akin_mono (subset_append_left xs ys))
    (hd.akin_mono (subset_append_right xs ys)), ?_⟩
  have hSplit : c ++ d = c' ++ d' ↔ c = c' ∧ d = d' :=
    ⟨fun hEq => append_inj hEq h.akin.length_eq, fun ⟨hc, hd⟩ => by rw [hc, hd]⟩
  rw [hSplit, h.equal, hd.equal]
  simp [or_imp, forall_and]

theorem cons {x : Expr} (h : Twin cs cs' xs c c')
    (hx : x.isLiteral = true → x.fold cs = x.fold cs') : Twin cs cs' (x :: xs) c c' := by
  refine ⟨h.akin_mono (subset_cons_self x xs), h.equal.trans ?_⟩
  simp only [mem_cons, forall_eq_or_imp]
  exact ⟨fun hxs => ⟨hx, hxs⟩, fun hAll => hAll.2⟩

theorem other (h : Twin cs cs' xs c c') (hx : x.isLiteral = false) : Twin cs cs' (x :: xs) c c' :=
  h.cons fun hLiteral => by rw [hx] at hLiteral; cases hLiteral

theorem target (h : Twin cs cs' xs c c') (v : Option Ident) :
    Twin cs cs' (Expr.ofTarget v ++ xs) c c' := by
  cases v with
  | none => exact h
  | some w => exact h.other rfl

theorem after (d : List Instr) (h : Twin cs cs' xs c c') : Twin cs cs' xs (d ++ c) (d ++ c') := by
  simpa using (same d).append h

theorem before (h : Twin cs cs' xs c c') (d : List Instr) : Twin cs cs' xs (c ++ d) (c' ++ d) := by
  simpa using h.append (same d)

end Twin
end Lsl
