import Lsl.Proofs.Grounded
import Lsl.Proofs.StackTyping

/-! Calls in code. The two ends of a call stand around the code of its arguments, like brackets, and what
stands between them pushes one value for each parameter, of its type. This is so whatever types the names of a
script have: unlike `Instr.effect?`, the stack of this module does not ask whether a cast is one of the
language. Where the names have types of the language, the two stacks agree. -/
namespace Lsl

open List

variable {x : Expr} {i : Instr} {t : Ty}

namespace Instr

def isCall : Instr → Bool
  | callBegin _ | call _ => true
  | _ => false

/-- What an instruction inside an expression does to the stack, where a cast may lead from any type to any. -/
def shift? (i : Instr) (st : List Cell) : Option (List Cell) :=
  match i with
  | cast source target => (take? source st).map (pushed target)
  | _ => i.effect? .void st

/-- Whether an instruction does the same to the stack inside an expression and in any body: it returns no
value, and a cast is one of the language. -/
def isTyped : Instr → Bool
  | cast source target => Ty.castable source target
  | returnValue _ => false
  | _ => true

theorem effect?_eq_shift? (h : i.isTyped = true) (result : Ty) (st : List Cell) :
    i.effect? result st = i.shift? st := by
  cases i with
  | cast source target =>
    have hCast : Ty.castable source target = true := h
    rw [effect?, shift?]
    cases take? source st <;> simp [hCast]
  | returnValue t => cases h
  | _ => rfl

end Instr

def shifts? : List Instr → List Cell → Option (List Cell)
  | [], st => some st
  | i :: c, st => (i.shift? st).bind (shifts? c)

theorem shifts?_append (c c' : List Instr) (st : List Cell) :
    shifts? (c ++ c') st = (shifts? c st).bind (shifts? c') := by
  induction c generalizing st with
  | nil => rfl
  | cons i c ih =>
    rw [cons_append, shifts?, shifts?, Option.bind_assoc]
    exact congrArg _ (funext ih)

theorem effects?_eq_shifts? {c : List Instr} (h : ∀ i ∈ c, i.isTyped = true) (result : Ty)
    (st : List Cell) :
    effects? result c st = shifts? c st := by
  induction c generalizing st with
  | nil => rfl
  | cons i c ih =>
    rw [effects?, shifts?, Instr.effect?_eq_shift? (h i (by simp))]
    exact congrArg _ (funext (ih fun j hj => h j (by simp [hj])))

/-- Code in which calls nest. Each of them begins with room for its result, and the code from there to the
call adds one value for each of its parameters to the stack, of the type of the parameter. -/
inductive Frames : List Instr → Prop where
  | nil : Frames []
  | plain (i : Instr) (c : List Instr) (hOther : i.isCall = false) (hc : Frames c) : Frames (i :: c)
  | call (k : CallTarget) (args c : List Instr) (hArgs : Frames args)
      (hTypes : ∀ st, shifts? args st = some (k.params.reverse.map .value ++ st)) (hc : Frames c) :
      Frames (.callBegin k.result :: args ++ .call k :: c)

theorem Frames.single (h : i.isCall = false) : Frames [i] := .plain i [] h .nil

theorem Frames.append {c c' : List Instr} (h : Frames c) (h' : Frames c') : Frames (c ++ c') := by
  induction h with
  | nil => exact h'
  | plain i c hOther _ ih => exact .plain i _ hOther ih
  | call k args c hArgs hTypes _ _ ih =>
    rw [append_assoc, cons_append]
    exact .call k args _ hArgs hTypes ih

def valueTypes (t : Ty) : List Ty := if t = .void then [] else [t]

theorem valueTypes_of_ne (h : t ≠ .void) : valueTypes t = [t] := if_neg h

theorem pushed_eq (t : Ty) (st : List Cell) : pushed t st = (valueTypes t).reverse.map .value ++ st := by
  unfold pushed valueTypes
  split <;> rfl

/-- Code that adds values of the given types to the stack, the last one on top. If the types are known to be
of the language, it does so in any body. -/
structure Adds (Known : Prop) (ts : List Ty) (c : List Instr) : Prop where
  frames : Frames c
  typed : Known → ∀ i ∈ c, i.isTyped = true
  shifts : ∀ st, shifts? c st = some (ts.reverse.map .value ++ st)

namespace Adds

variable {Known : Prop} {ts us : List Ty} {c c' : List Instr}

theorem nil : Adds Known [] [] := ⟨.nil, by simp, fun _ => rfl⟩

theorem append (h : Adds Known ts c) (h' : Adds Known us c') : Adds Known (ts ++ us) (c ++ c') where
  frames := h.frames.append h'.frames
  typed := fun k i hMem => (List.mem_append.mp hMem).elim (h.typed k i) (h'.typed k i)
  shifts := fun st => by
    rw [shifts?_append, h.shifts, Option.bind_some, h'.shifts]
    simp

theorem next (h : Adds Known ts c) (hCall : i.isCall = false) (hTyped : Known → i.isTyped = true)
    (hi : ∀ st, i.shift? (ts.reverse.map .value ++ st) = some (us.reverse.map .value ++ st)) :
    Adds Known us (c ++ [i]) where
  frames := h.frames.append (.single hCall)
  typed := by
    intro k j hMem
    rcases List.mem_append.mp hMem with hMem | hMem
    · exact h.typed k j hMem
    · obtain rfl := List.mem_singleton.mp hMem
      exact hTyped k
  shifts := fun st => by
    rw [shifts?_append, h.shifts, Option.bind_some, shifts?, hi]
    rfl

theorem pushConst (v : Value) : Adds Known (valueTypes v.ty) [.pushConst v] :=
  nil.next rfl (fun _ => rfl) fun st => congrArg some (pushed_eq v.ty st)

theorem coerced {src dst : Ty} (h : Adds Known (valueTypes src) c) (hKnown : Known → src.isKnown = true)
    (hCoercible : Ty.coercible dst src = true) : Adds Known [dst] (c ++ coerce src dst) := by
  obtain ⟨hDst, hSrc⟩ := Ty.ne_void_of_coercible hCoercible
  rw [valueTypes_of_ne hSrc] at h
  unfold coerce
  by_cases hSame : src = dst
  · rw [if_pos (Or.inl hSame), append_nil, ← hSame]
    exact h
  · rw [if_neg (by simp [hSame, hDst])]
    split
    · next hList =>
      subst hList
      refine h.next rfl (fun _ => rfl) fun st => ?_
      simp [Instr.shift?, Instr.effect?, takeElements?, hSame, pushed]
    · next hList =>
      refine h.next rfl (fun k => Ty.castable_of_coercible (hKnown k) hSame hList hCoercible) fun st => ?_
      simp [Instr.shift?, pushed_value hDst]

/-- Where the types are known, the values are added in the code of any body. -/
theorem leads (h : Adds True ts c) (result : Ty) (st : List Cell) :
    Leads result c st (ts.reverse.map .value ++ st) :=
  (effects?_eq_shifts? (h.typed trivial) result st).trans (h.shifts st)

theorem pushes (h : Adds True (valueTypes t) c) (result : Ty) (st : List Cell) :
    Leads result c st (pushed t st) :=
  pushed_eq t st ▸ h.leads result st

theorem call {k : CallTarget} (h : Adds Known k.params c) :
    Adds Known (valueTypes k.result) (Instr.callBegin k.result :: c ++ [.call k]) where
  frames := .call k c [] h.frames h.shifts .nil
  typed := by
    intro known i hMem
    simp only [cons_append, mem_cons, mem_append, not_mem_nil, or_false] at hMem
    rcases hMem with rfl | hMem | rfl
    · rfl
    · exact h.typed known i hMem
    · rfl
  shifts := fun st => by
    have hBegin : (Instr.callBegin k.result).shift? st = some (.mark :: .slot k.result :: st) := rfl
    rw [cons_append, shifts?, hBegin, Option.bind_some, shifts?_append, h.shifts, Option.bind_some,
      shifts?]
    simp only [Instr.shift?, Instr.effect?, takeAll?_values, Option.bind_some, returned?, if_true, pushed_eq]
    rfl

end Adds

namespace Surroundings

variable {Known : Prop} {e : Surroundings} {v : Ident} {c : List Instr}

theorem load_adds (e : Surroundings) (v : Ident) (s : Symbol) :
    Adds Known (valueTypes v.ty) [e.loadInstr v s] := by
  unfold loadInstr
  split <;> exact Adds.nil.next rfl (fun _ => rfl) fun st => congrArg some (pushed_eq v.ty st)

theorem store_adds (h : Adds Known [v.ty] c) (s : Symbol) (keep : Bool) :
    Adds Known (if keep then [v.ty] else []) (c ++ [e.storeInstr v s keep]) := by
  refine h.next rfl (fun _ => rfl) fun st => ?_
  cases keep <;> simp [storeInstr, Instr.shift?, Instr.effect?]

end Surroundings

namespace Expr

variable {Known : Prop} {e : Surroundings} {p : Pos}

theorem coerced_adds {dst : Ty} {c : List Instr} (hPresent : x.isMissing = false)
    (hTyped : x.WellTyped) (hValued : Known → x.Valued) (hCoercible : Ty.coercible dst x.ty = true)
    (h : Adds Known (valueTypes x.ty) c) : Adds Known [dst] (c ++ coerce x.ty dst) :=
  h.coerced (fun k => x.ty_isKnown hPresent hTyped (hValued k)) hCoercible

theorem codeAll_adds {es : List Expr} (hNotVoid : ∀ x ∈ es, x.ty ≠ .void)
    (ih : ∀ x ∈ es, ∃ c, x.code e = .ok c ∧ Adds Known (valueTypes x.ty) c) :
    ∃ c, codeAll e es = .ok c ∧ Adds Known (es.map ty) c := by
  induction es with
  | nil => exact ⟨[], rfl, .nil⟩
  | cons x es ihList =>
    obtain ⟨cx, hx, hFirst⟩ := ih x (by simp)
    obtain ⟨ces, hes, hRest⟩ :=
      ihList (fun y hy => hNotVoid y (by simp [hy])) fun y hy => ih y (by simp [hy])
    rw [valueTypes_of_ne (hNotVoid x (by simp))] at hFirst
    exact ⟨_, codeAll_cons hx hes, hFirst.append hRest⟩

theorem codeArgs_adds {params : List Ty} {es : List Expr} (hFit : argumentsFit params (es.map ty) = true)
    (hPresent : ∀ x ∈ es, x.isMissing = false) (hKnown : Known → ∀ x ∈ es, x.ty.isKnown = true)
    (ih : ∀ x ∈ es, ∃ c, x.code e = .ok c ∧ Adds Known (valueTypes x.ty) c) :
    ∃ c, codeArgs e params es = .ok c ∧ Adds Known params c := by
  induction es generalizing params with
  | nil =>
    cases params with
    | nil => exact ⟨[], by simp [codeArgs], .nil⟩
    | cons => cases hFit
  | cons x es ihList =>
    cases params with
    | nil => cases hFit
    | cons param params =>
      obtain ⟨hCoercible, hRestFit⟩ := argumentsFit_cons hFit
      obtain ⟨cx, hx, hFirst⟩ := ih x (by simp)
      obtain ⟨ces, hes, hRest⟩ := ihList hRestFit (fun y hy => hPresent y (by simp [hy]))
        (fun k y hy => hKnown k y (by simp [hy])) fun y hy => ih y (by simp [hy])
      exact ⟨_, codeArgs_cons hx (hPresent x (by simp)) hes,
        (hFirst.coerced (fun k => hKnown k x (by simp)) hCoercible).append hRest⟩

theorem binary_adds {op : Operator} {l r la ra : Ty} {cl cr : List Instr}
    (hl : Adds Known (valueTypes l) cl) (hr : Adds Known (valueTypes r) cr)
    (hKnown : Known → l.isKnown = true ∧ r.isKnown = true) (hResult : op.binaryResult? l r = some t)
    (hPromote : op.promote l r = (la, ra)) :
    Adds Known (valueTypes t) (cl ++ coerce l la ++ (cr ++ coerce r ra) ++ [Instr.binary op la ra]) := by
  obtain ⟨_, hLeft, hRight⟩ := Operator.binaryResult?_isValue hResult
  obtain ⟨hLeftAs, hRightAs⟩ := Operator.promote_coercible hPromote hLeft hRight
  refine ((hl.coerced (fun k => (hKnown k).1) hLeftAs).append
    (hr.coerced (fun k => (hKnown k).2) hRightAs)).next rfl (fun _ => rfl) fun st => ?_
  simp [Instr.shift?, Instr.effect?, takeAll?, Operator.binaryResult?_promote hPromote, hResult, pushed_eq]

theorem assignCode_adds {op : Operator} {v : Option Ident} {x : Expr} {la ra t : Ty} {cx : List Instr}
    {keep : Bool} (hRuled : (assign p op v x la ra t).Ruled)
    (hKnown : Known → t.isKnown = true ∧ x.ty.isKnown = true) (hx : Adds Known (valueTypes x.ty) cx) :
    ∃ c, assignCode e op v x.ty cx la ra keep = .ok c ∧ Adds Known (if keep then valueTypes t else [])
      c := by
  obtain ⟨w, sym, rfl, hEntry, rfl, ⟨rfl, hFits⟩ | ⟨hOp, res, hRes, hTypes, hFits⟩⟩ :=
    hRuled.assign_cases
  · have hCoercible := Ty.coercible_of_assignable hFits
    rw [valueTypes_of_ne (Ty.ne_void_of_coercible hCoercible).1]
    exact ⟨_, assignCode_none hEntry,
      Surroundings.store_adds (hx.coerced (fun k => (hKnown k).2) hCoercible) sym keep⟩
  · have hCoercible := Ty.coercible_of_assignable hFits
    have hResKnown := (Ty.isValue_iff.mp (Operator.binaryResult?_isValue hRes).1).1
    rw [valueTypes_of_ne (Ty.ne_void_of_coercible hCoercible).1]
    refine ⟨_, assignCode_op hEntry hOp hRes, Surroundings.store_adds ?_ sym keep⟩
    simpa only [append_assoc] using
      (binary_adds (e.load_adds w sym) hx hKnown hRes hTypes).coerced (fun _ => hResKnown) hCoercible

theorem incDecCode_adds {d b keep : Bool} {v : Option Ident} {t : Ty} (hRuled : (incDec p d b v t).Ruled) :
    ∃ c, incDecCode e d b v keep = .ok c ∧ Adds Known (if keep then valueTypes t else []) c := by
  obtain ⟨w, rfl, ⟨sym, hEntry, _⟩, hTy, rfl⟩ := hRuled
  have hValue : w.ty ≠ .void := by rcases hTy with h | h <;> simp [h]
  have hLoad := @Surroundings.load_adds Known e w sym
  rw [valueTypes_of_ne hValue] at hLoad
  -- The variable and one more or less, above whatever was pushed before.
  have hStep : Adds Known [w.ty] ([e.loadInstr w sym] ++ [Instr.pushConst (one w.ty)] ++
      [.binary (if d then .sub else .add) w.ty w.ty]) := by
    have hOne := @Adds.pushConst Known (one w.ty)
    rw [one_ty hTy, valueTypes_of_ne hValue] at hOne
    refine (hLoad.append hOne).next rfl (fun _ => rfl) fun st => ?_
    simp [Instr.shift?, Instr.effect?, takeAll?, step_result hTy, pushed_value hValue]
  have hStore := fun store => Surroundings.store_adds (e := e) hStep sym store
  refine ⟨_, incDecCode_eq hEntry, ?_⟩
  rw [valueTypes_of_ne hValue]
  cases keep with
  | false => simpa using hStore false
  | true =>
    cases b with
    | true => simpa using hStore true
    | false => simpa using hLoad.append (hStore false)

/-- The code of a well-typed expression adds one value of its type, or nothing if that is `void`. -/
theorem code_adds (e : Surroundings) (x : Expr) (hPresent : x.isMissing = false) (hTyped : x.WellTyped)
    (hValued : Known → x.Valued) : ∃ c, x.code e = .ok c ∧ Adds Known (valueTypes x.ty) c := by
  have hConst : ∀ {v : Value} {t : Ty}, v.ty = t → Adds Known (valueTypes t) [.pushConst v] :=
    fun {v _} h => h ▸ Adds.pushConst v
  induction x with
  | missing => cases hPresent
  | int p n t | float p n t | string p n t => exact ⟨_, rfl, hConst (hTyped.ruled rfl).symm⟩
  | vector p x y z t ihx ihy ihz =>
    obtain ⟨⟨rfl, ⟨px, fx⟩, ⟨py, fy⟩, pz, fz⟩, hx, hy, hz⟩ := wellTyped_vector.mp hTyped
    obtain ⟨vx, vy, vz⟩ : (Known → x.Valued) ∧ (Known → y.Valued) ∧ (Known → z.Valued) := by
      simpa only [valued_vector, imp_and] using hValued
    cases hFold : (vector p x y z .vector).fold e.constants with
    | some v => exact ⟨_, code_vector_folded hFold, hConst (folded_vector hFold)⟩
    | none =>
      obtain ⟨cx, hCodeX, ax⟩ := ihx px hx vx
      obtain ⟨cy, hCodeY, ay⟩ := ihy py hy vy
      obtain ⟨cz, hCodeZ, az⟩ := ihz pz hz vz
      refine ⟨_, code_vector hFold hCodeX hCodeY hCodeZ px py pz, ?_⟩
      exact (((coerced_adds px hx vx (Ty.coercible_of_assignable fx) ax).append
        (coerced_adds py hy vy (Ty.coercible_of_assignable fy) ay)).append
        (coerced_adds pz hz vz (Ty.coercible_of_assignable fz) az)).next rfl (fun _ => rfl) fun st => rfl
  | rotation p x y z s t ihx ihy ihz ihs =>
    obtain ⟨⟨rfl, ⟨px, fx⟩, ⟨py, fy⟩, ⟨pz, fz⟩, ps, fs⟩, hx, hy, hz, hs⟩ :=
      wellTyped_rotation.mp hTyped
    obtain ⟨vx, vy, vz, vs⟩ :
        (Known → x.Valued) ∧ (Known → y.Valued) ∧ (Known → z.Valued) ∧ (Known → s.Valued) := by
      simpa only [valued_rotation, imp_and] using hValued
    cases hFold : (rotation p x y z s .rotation).fold e.constants with
    | some v => exact ⟨_, code_rotation_folded hFold, hConst (folded_rotation hFold)⟩
    | none =>
      obtain ⟨cx, hCodeX, ax⟩ := ihx px hx vx
      obtain ⟨cy, hCodeY, ay⟩ := ihy py hy vy
      obtain ⟨cz, hCodeZ, az⟩ := ihz pz hz vz
      obtain ⟨cs, hCodeS, as⟩ := ihs ps hs vs
      refine ⟨_, code_rotation hFold hCodeX hCodeY hCodeZ hCodeS px py pz ps, ?_⟩
      exact ((((coerced_adds px hx vx (Ty.coercible_of_assignable fx) ax).append
        (coerced_adds py hy vy (Ty.coercible_of_assignable fy) ay)).append
        (coerced_adds pz hz vz (Ty.coercible_of_assignable fz) az)).append
        (coerced_adds ps hs vs (Ty.coercible_of_assignable fs) as)).next rfl (fun _ => rfl) fun st => rfl
  | list p es t ih =>
    obtain ⟨⟨rfl, hElements⟩, hes⟩ := wellTyped_list.mp hTyped
    cases hFold : (list p es .list).fold e.constants with
    | some v => exact ⟨_, code_list_folded hFold, hConst (folded_list hFold)⟩
    | none =>
      obtain ⟨ces, hCode, hAll⟩ := codeAll_adds (fun x hx => (hElements x hx).2.2)
        fun x hx => ih x hx (hElements x hx).1 (hes x hx) fun k => valued_list.mp (hValued k) x hx
      refine ⟨_, code_list hFold hCode, hAll.next rfl (fun _ => rfl) fun st => ?_⟩
      have hTake := @takeElements?_values (es.map ty).reverse
        (by simpa using fun x hx => (hElements x hx).2.1) st
      simp only [length_reverse, length_map] at hTake
      have hCount : ¬ (es.length : Int) < 0 := by omega
      simp only [Instr.shift?, Instr.effect?, hCount, if_false, Int.toNat_natCast, hTake, Option.map_some]
      rfl
  | ident v =>
    obtain ⟨sym, hEntry, _⟩ := hTyped.ruled rfl
    exact ⟨_, e.load_eq hEntry, e.load_adds v sym⟩
  | unary p op x t ih =>
    obtain ⟨⟨px, hResult⟩, hx⟩ := wellTyped_unary.mp hTyped
    obtain ⟨cx, hCode, ax⟩ := ih px hx hValued
    have hValue := (Operator.unaryResult?_isValue hResult).2
    rw [valueTypes_of_ne hValue] at ax
    refine ⟨_, code_unary hCode px, ?_⟩
    change Adds Known (valueTypes t) _
    refine ax.next rfl (fun _ => rfl) fun st => ?_
    simp [Instr.shift?, Instr.effect?, hResult, pushed_eq]
  | binary p op l r la ra t ihl ihr =>
    obtain ⟨⟨pl, pr, hResult, hPromote⟩, hl, hr⟩ := wellTyped_binary.mp hTyped
    obtain ⟨vl, vr⟩ : (Known → l.Valued) ∧ (Known → r.Valued) := by
      simpa only [valued_binary, imp_and] using hValued
    obtain ⟨cl, hCodeL, al⟩ := ihl pl hl vl
    obtain ⟨cr, hCodeR, ar⟩ := ihr pr hr vr
    have hKnown := fun k => And.intro (l.ty_isKnown pl hl (vl k)) (r.ty_isKnown pr hr (vr k))
    exact ⟨_, code_binary hCodeL hCodeR pl pr, binary_adds al ar hKnown hResult hPromote⟩
  | assign p op v x la ra t ih =>
    obtain ⟨hRuled, hx⟩ := wellTyped_assign.mp hTyped
    have vx := fun k => valued_assigned (hValued k)
    obtain ⟨cx, hCode, ax⟩ := ih hRuled.1 hx vx
    have hKnown := fun k => And.intro (ty_isKnown _ hPresent hTyped (hValued k))
      (x.ty_isKnown hRuled.1 hx (vx k))
    obtain ⟨c, hAssign, hAdds⟩ := @assignCode_adds Known e p op v x la ra t cx true hRuled hKnown ax
    exact ⟨c, (code_assign hCode hRuled.1).trans hAssign, hAdds⟩
  | incDec p d b v t => exact @incDecCode_adds Known e p d b true v t (hTyped.ruled rfl)
  | cast p target x t ih =>
    obtain ⟨⟨px, hCast, rfl⟩, hx⟩ := wellTyped_cast.mp hTyped
    obtain ⟨cx, hCode, ax⟩ := ih px hx hValued
    obtain ⟨hSource, hTarget⟩ := Ty.castable_ne_void hCast
    rw [valueTypes_of_ne hSource] at ax
    refine ⟨_, code_cast hCode px, ?_⟩
    rw [ty, valueTypes_of_ne hTarget]
    split
    · next hSame =>
      rw [append_nil, ← hSame]
      exact ax
    · refine ax.next rfl (fun _ => hCast) fun st => ?_
      simp [Instr.shift?, pushed_value hTarget]
  | call p name args c t ih =>
    obtain ⟨⟨hPresents, sym, rfl, hFit, rfl⟩, hArgs⟩ := wellTyped_call.mp hTyped
    have vs := fun k => (valued_call.mp (hValued k)).1
    obtain ⟨ca, hCode, hAdds⟩ := codeArgs_adds hFit hPresents
      (fun k x hx => x.ty_isKnown (hPresents x hx) (hArgs x hx) (vs k x hx))
      fun x hx => ih x hx (hPresents x hx) (hArgs x hx) fun k => vs k x hx
    let k : CallTarget :=
      { library := sym.kind == .library, index := e.index sym, name := sym.name, result := sym.ty
        params := sym.params.getD [], argBytes := Ty.frameSize (sym.params.getD []) }
    exact ⟨_, code_call hCode, Adds.call (k := k) hAdds⟩
  | paren p x t ih =>
    obtain ⟨⟨px, rfl⟩, hx⟩ := wellTyped_paren.mp hTyped
    exact ih px hx hValued
  | print p x t ih =>
    obtain ⟨⟨px, hValue, rfl⟩, hx⟩ := wellTyped_print.mp hTyped
    obtain ⟨cx, hCode, ax⟩ := ih px hx hValued
    rw [valueTypes_of_ne hValue] at ax
    refine ⟨_, code_print hCode px, ax.next rfl (fun _ => rfl) fun st => ?_⟩
    simp [Instr.shift?, Instr.effect?, ty, valueTypes]

/-- An expression that is evaluated for its effects leaves the stack as it was. -/
theorem discard_adds (e : Surroundings) (x : Expr) (hPresent : x.isMissing = false) (hTyped : x.WellTyped)
    (hValued : Known → x.Valued) : ∃ c, x.discard e = .ok c ∧ Adds Known [] c := by
  induction x using discard_cases with
  | assign p op v x la ra t =>
    obtain ⟨hRuled, hx⟩ := wellTyped_assign.mp hTyped
    have vx := fun k => valued_assigned (hValued k)
    obtain ⟨cx, hCode, ax⟩ := x.code_adds e hRuled.1 hx vx
    have hKnown := fun k => And.intro (ty_isKnown _ hPresent hTyped (hValued k))
      (x.ty_isKnown hRuled.1 hx (vx k))
    obtain ⟨c, hAssign, hAdds⟩ := @assignCode_adds Known e p op v x la ra t cx false hRuled hKnown ax
    exact ⟨c, (discard_assign hCode hRuled.1).trans hAssign, hAdds⟩
  | incDec p d b v t => exact @incDecCode_adds Known e p d b false v t (hTyped.ruled rfl)
  | paren p x t ih =>
    obtain ⟨⟨px, _⟩, hx⟩ := wellTyped_paren.mp hTyped
    exact ih px hx hValued
  | other x hDiscard =>
    obtain ⟨c, hCode, hAdds⟩ := x.code_adds e hPresent hTyped hValued
    refine ⟨_, hDiscard e c hPresent hCode, ?_⟩
    split
    · next hVoid =>
      rw [hVoid] at hAdds
      rw [append_nil]
      exact hAdds
    · next hValue =>
      rw [valueTypes_of_ne hValue] at hAdds
      refine hAdds.next rfl (fun _ => rfl) fun st => ?_
      simp [Instr.shift?, Instr.effect?]

/-- The code of a well-typed expression, whose names have types of the language, pushes one value of its type,
or nothing if that is `void`. -/
theorem code_leads {result : Ty} (e : Surroundings) (x : Expr) (hPresent : x.isMissing = false)
    (hTyped : x.WellTyped) (hValued : x.Valued) :
    ∃ c, x.code e = .ok c ∧ ∀ st, Leads result c st (pushed x.ty st) := by
  obtain ⟨c, hCode, hAdds⟩ := x.code_adds e hPresent hTyped fun _ : True => hValued
  exact ⟨c, hCode, hAdds.pushes result⟩

theorem discard_leads {result : Ty} (e : Surroundings) (x : Expr) (hPresent : x.isMissing = false)
    (hTyped : x.WellTyped) (hValued : x.Valued) :
    ∃ c, x.discard e = .ok c ∧ ∀ st, Leads result c st st := by
  obtain ⟨c, hCode, hAdds⟩ := x.discard_adds e hPresent hTyped fun _ : True => hValued
  exact ⟨c, hCode, hAdds.leads result⟩

end Expr

namespace Stmt

mutual

def changes : Stmt → List (String × Option Symbol)
  | block _ _ ss => changesAll ss
  | ifThen _ _ _ t _ f => changes t ++ changes f
  | .while _ _ _ b | doWhile _ _ b _ | .for _ _ _ _ _ b => changes b
  | goto _ name entry => [(name, entry)]
  | missing | expr .. | decl .. | jump .. | label .. | ret .. | empty _ => []

def changesAll : List Stmt → List (String × Option Symbol)
  | [] => []
  | s :: ss => changes s ++ changesAll ss

end

theorem mem_changesAll {g : String × Option Symbol} {ss : List Stmt} :
    g ∈ changesAll ss ↔ ∃ s ∈ ss, g ∈ s.changes := by
  induction ss with
  | nil => simp [changesAll]
  | cons s ss ih => simp [changesAll, ih]

theorem mem_changes {p : Pos} {name : String} {entry : Option Symbol} {s : Stmt}
    (h : goto p name entry ∈ s.parts) : (name, entry) ∈ s.changes := by
  induction s with
  | block p scope ss ih =>
    simp only [parts, mem_cons, reduceCtorEq, false_or, mem_partsAll] at h
    obtain ⟨s, hs, h⟩ := h
    exact mem_changesAll.mpr ⟨s, hs, ih s hs h⟩
  | ifThen p c ts t es e iht ihe =>
    simp only [parts, cons_append, mem_cons, reduceCtorEq, false_or, mem_append] at h
    exact List.mem_append.mpr (h.imp iht ihe)
  | _ => simp_all [parts, changes]

end Stmt

/-- A change of state in code stands for the statement that asks for it. -/
theorem Arises.state {e : Surroundings} {Exprs : Expr → Prop} {Stmts : Stmt → Prop} {c : List Instr}
    {i : Int}
    {name : String} (h : Arises e Exprs Stmts c) (hMem : .state i name ∈ c) :
    ∃ p s, Stmts (.goto p name (some s)) ∧ i = e.index s := by
  generalize hi : Instr.state i name = k at hMem
  cases h k hMem with
  | load =>
    unfold Surroundings.loadInstr at hi
    split at hi
    · cases hi
    · cases hi
  | @state p _ s hStmt =>
    cases hi
    exact ⟨p, s, hStmt, rfl⟩
  | control _ hNone | plain hNone =>
    subst hi
    cases hNone
  | _ => cases hi

/-- Code in which calls nest and each change of state is one of the given ones. -/
structure Linked (e : Surroundings) (changes : List (String × Option Symbol)) (c : List Instr) : Prop where
  frames : Frames c
  changes : ∀ i name, .state i name ∈ c → ∃ s, (name, some s) ∈ changes ∧ i = e.index s

namespace Frames

variable {e : Surroundings}

theorem coerce (source target : Ty) : Frames (coerce source target) := by
  unfold Lsl.coerce
  split
  · exact .nil
  · split
    · exact single rfl
    · exact single rfl

theorem code {c : List Instr} (hPresent : x.isMissing = false) (hTyped : x.WellTyped)
    (h : x.code e = .ok c) : Frames c := by
  obtain ⟨c', hCode, hAdds⟩ := x.code_adds e hPresent hTyped False.elim
  cases hCode.symm.trans h
  exact hAdds.frames

theorem initCode {ty : Ty} {c : List Instr} (hTyped : x.WellTyped)
    (h : Stmt.initCode e ty x = .ok c) : Frames c := by
  rcases x.missing_or_present with rfl | hPresent
  · cases h
    exact single rfl
  · obtain ⟨cx, hx⟩ := x.code_succeeds e hTyped
    cases (Stmt.initCode_eq hPresent hx).symm.trans h
    exact (code hPresent hTyped hx).append (coerce _ _)

theorem resultCode {c : List Instr} (hTyped : x.WellTyped) (h : Stmt.resultCode e x = .ok c) : Frames c := by
  by_cases hNone : x.isMissing = true ∨ e.result = .void
  · cases (Stmt.resultCode_nil hNone).symm.trans h
    exact .nil
  · simp only [not_or, Bool.not_eq_true] at hNone
    obtain ⟨cx, hx⟩ := x.code_succeeds e hTyped
    cases (Stmt.resultCode_eq hNone.1 hNone.2 hx).symm.trans h
    exact ((code hNone.1 hTyped hx).append (coerce _ _)).append (single rfl)

end Frames

/-- In the code of statements calls nest. -/
theorem Pieces.frames {e : Surroundings} {Stmts : Stmt → Prop} {c : List Instr}
    (hStmts : ∀ t, Stmts t → ∀ x ∈ t.exprs, x.Ruled) (h : Pieces e Stmts c) : Frames c := by
  induction h with
  | nil => exact .nil
  | append _ _ ihc ihd => exact ihc.append ihd
  | label _ n | jump _ n => exact .single rfl
  | @discard s x c hStmt hParts hPresent hCode =>
    obtain ⟨c', hCode', hAdds⟩ := x.discard_adds e hPresent (fun y hy => hStmts s hStmt y (hParts hy))
      False.elim
    cases hCode'.symm.trans hCode
    exact hAdds.frames
  | @test s x c i hStmt hParts hPresent _ hCode hBranch =>
    refine (Frames.code hPresent (fun y hy => hStmts s hStmt y (hParts hy)) hCode).append (.single ?_)
    obtain ⟨n, rfl | rfl⟩ := hBranch
    · rfl
    · rfl
  | initial hStmt hCode => exact (Frames.initCode (hStmts _ hStmt) hCode).append (.single rfl)
  | result hStmt hCode =>
    exact (Frames.resultCode (hStmts _ hStmt) hCode).append (.plain _ _ rfl (.single rfl))
  | goto => exact .plain _ _ rfl (.plain _ _ rfl (.single rfl))

/-- In the body of a routine calls nest, and states are changed to as its statements say. -/
theorem Routine.Sound.linked {Top : Symbol → Prop} {round : Nat} {r : Routine} {b : Block}
    {e : Surroundings}
    {l l' : Labels} {c : List Instr} (h : r.Sound Top round b)
    (hCode : Stmt.codeAll e b.stmts l = .ok (c, l')) (frame : Int) :
    Linked e (Stmt.changesAll b.stmts) (e.finish (.enterFrame frame :: c)) := by
  obtain ⟨tail, hTail, hFinish, _⟩ := e.finish_eq (.enterFrame frame :: c)
  refine ⟨?_, fun i name hMem => ?_⟩
  · rw [hFinish]
    refine (Frames.plain _ _ rfl ((h.pieces hCode).frames fun t ht => (h.ready_body.part ht).exprs)).append ?_
    rcases hTail with rfl | rfl
    · exact .plain _ _ rfl (.single rfl)
    · exact .nil
  · obtain ⟨rest, hRest, hArises⟩ := h.arises hCode frame
    rw [hRest] at hMem
    obtain hMem | hMem := List.mem_cons.mp hMem
    · cases hMem
    · obtain ⟨p, s, hStmt, rfl⟩ := hArises.state hMem
      exact ⟨s, @Stmt.mem_changes p name (some s) (.block b.pos b.scope b.stmts) hStmt, rfl⟩

end Lsl
