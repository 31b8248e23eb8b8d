import Lsl.Proofs.ImageGlobals
import Lsl.Proofs.InitialValues
import Lsl.Proofs.NotesOnly

/-! The globals of an accepted script in an image. Their symbols are numbered in the order of the
script, the places that the code uses are those where the image lays them out, and their initial values
can be stored. -/
namespace Lsl

open List

variable {c : Constant} {done : Bytes} {heap : Heap} {os : List Global} {constants cs : Constants}

variable {v : Value} {t : Script} {vs : List GlobalVar} {gs : List Global} {round i : Nat} {ds : Constants}

/-- A value that fills a global: a list holds values of other types only. -/
def Value.Storable (v : Value) : Prop :=
  v.ty.isValue = true ∧ ∀ vs, v = .list vs → ∀ w ∈ vs, w.ty.isValue = true ∧ w.ty ≠ .list

/-- The initial values that are known can be stored. -/
def Constants.Storable (cs : Constants) : Prop := ∀ c ∈ cs, c.2.value.Storable

namespace Value

theorem storable_of_ne_list (h : v.ty.isValue = true) (hList : v.ty ≠ .list) : v.Storable := by
  refine ⟨h, ?_⟩
  rintro vs rfl
  exact absurd rfl hList

theorem zero_storable {t : Ty} (h : t.isValue = true) : (zero t).Storable := by
  refine ⟨by rw [zero_ty]; exact h, fun vs hList => ?_⟩
  cases t <;> cases hList
  simp

theorem neg?_storable {w : Value} (h : v.neg? = some w) : w.Storable := by
  cases v <;> cases h <;> exact storable_of_ne_list rfl (by simp [ty])

theorem convert?_storable {w : Value} {t : Ty} (hv : v.Storable) (h : v.convert? t = some w) :
    w.Storable := by
  unfold convert? at h
  split at h
  · cases h
    exact hv
  · rename_i hOther
    split at h <;> cases h
    · exact storable_of_ne_list rfl (by simp [ty])
    · exact storable_of_ne_list rfl (by simp [ty])
    · exact storable_of_ne_list rfl (by simp [ty])
    · refine ⟨rfl, ?_⟩
      rintro vs hList w hw
      cases hList
      rw [List.mem_singleton.mp hw]
      exact ⟨hv.1, hOther⟩

end Value

namespace Constants

theorem Storable.lookup (h : cs.Storable) {k : Nat × Nat} (hc : cs.lookup k = some c) :
    c.value.Storable := by
  obtain ⟨_, _, hSplit, _⟩ := List.lookup_eq_some_iff.mp hc
  exact h (k, c) (by simp [hSplit])

theorem Storable.constant? (h : cs.Storable) {s : Symbol} (hc : cs.constant? s = some c) :
    c.value.Storable := by
  unfold Constants.constant? at hc
  split at hc
  · exact h.lookup hc
  · cases hc

end Constants

namespace Expr

theorem foldAll_storable {es : List Expr} {vs : List Value}
    (ih : ∀ x ∈ es, ∀ v, x.fold cs = some v → v.Storable) (h : foldAll cs es = some vs) :
    ∀ w ∈ vs, w.ty.isValue = true ∧ w.ty ≠ .list := by
  induction es generalizing vs with
  | nil =>
    cases h
    simp
  | cons x es ihList =>
    simp only [foldAll, Option.bind_eq_bind, Option.bind_eq_some_iff, Option.filter_eq_some_iff,
      isElement, bne_iff_ne] at h
    obtain ⟨v, ⟨hv, hElement⟩, rest, hRest, hvs⟩ := h
    cases hvs
    simp only [mem_cons, forall_eq_or_imp]
    exact ⟨⟨(ih x (by simp) v hv).1, hElement⟩, ihList (fun y hy => ih y (by simp [hy])) hRest⟩

/-- What an expression folds to can be stored if all that is known can. -/
theorem fold_storable (hcs : cs.Storable) (x : Expr) (v : Value) (h : x.fold cs = some v) : v.Storable := by
  induction x generalizing v with
  | paren p x t ih => exact ih v h
  | unary p op x t ih =>
    simp only [fold] at h
    split at h
    · obtain ⟨w, _, hNeg⟩ := Option.bind_eq_some_iff.mp h
      exact Value.neg?_storable hNeg
    · cases h
  | ident =>
    simp only [fold] at h
    split at h
    · cases h
    · rename_i c hc
      obtain ⟨s, _, hConstant⟩ := Option.bind_eq_some_iff.mp hc
      split at h
      · cases h
        exact hcs.constant? hConstant
      · simp only [Constant.component?, Option.bind_eq_bind, Option.bind_eq_some_iff] at h
        obtain ⟨i, _, h⟩ := h
        split at h <;> cases h <;> exact Value.storable_of_ne_list rfl (by simp [Value.ty])
  | vector p x y z t ihx ihy ihz =>
    simp only [fold, Option.bind_eq_bind, Option.bind_eq_some_iff] at h
    obtain ⟨_, _, _, _, _, _, hv⟩ := h
    cases hv
    exact Value.storable_of_ne_list rfl (by simp [Value.ty])
  | rotation p x y z s t ihx ihy ihz ihs =>
    simp only [fold, Option.bind_eq_bind, Option.bind_eq_some_iff] at h
    obtain ⟨_, _, _, _, _, _, _, _, hv⟩ := h
    cases hv
    exact Value.storable_of_ne_list rfl (by simp [Value.ty])
  | list p es t ih =>
    obtain ⟨vs, hvs, rfl⟩ := Option.map_eq_some_iff.mp h
    refine ⟨rfl, fun vs' hList => ?_⟩
    cases hList
    exact foldAll_storable ih hvs
  | int p n t | float p n t | string p n t =>
    cases h
    exact Value.storable_of_ne_list rfl (by simp [Value.ty])
  | _ => cases h

end Expr

namespace Heap

theorem elements_succeeds {vs : List Value} (h : ∀ v ∈ vs, v.ty.isValue = true ∧ v.ty ≠ .list)
    (place : Nat) : ∃ es, elements place vs = .ok es := by
  induction vs generalizing place with
  | nil => exact ⟨[], rfl⟩
  | cons v vs ih =>
    obtain ⟨hValue, hList⟩ := h v (by simp)
    obtain ⟨hKnown, hVoid⟩ := Ty.isValue_iff.mp hValue
    obtain ⟨es, hes⟩ := ih (fun w hw => h w (by simp [hw])) (place + 1)
    rw [elements, if_neg (by simp [hList, hVoid, hKnown]), hes]
    exact ⟨_, rfl⟩

/-- A value that can be stored has a block, if its type is one of the heap. -/
theorem add_succeeds (hv : v.Storable) (hRef : v.ty.isReference = true) (h : Heap) :
    ∃ r, h.add v = .ok r := by
  obtain ⟨content, hData⟩ : ∃ content, data v = .ok content := by
    cases v with
    | string s | key s => exact ⟨_, rfl⟩
    | list vs =>
      obtain ⟨es, hes⟩ := elements_succeeds (hv.2 vs rfl) 0
      exact ⟨_, by rw [data, hes]; rfl⟩
    | unknown n => exact absurd hv.1 (by simp [Value.ty, Ty.isValue, Ty.isKnown])
    | _ => cases hRef
  exact ⟨_, by rw [add, hData]; rfl⟩

end Heap

namespace Image

theorem addGlobal_succeeds {g : GlobalData} (hg : g.Typed) (hStorable : g.value.Storable)
    (hPlace : g.offset = done.length + globalHeaderSize g.name) :
    ∃ r, addGlobal done heap g = .ok r := by
  simp only [addGlobal, hg.initialValue_eq]
  rw [if_neg (by simp [hPlace])]
  cases hRef : g.ty.isReference with
  | false => exact ⟨_, rfl⟩
  | true =>
    obtain ⟨⟨stored, handle⟩, hAdd⟩ := Heap.add_succeeds hStorable (hg.value ▸ hRef) heap
    simp only [hAdd]
    exact ⟨_, rfl⟩

theorem foldlM_addGlobal_succeeds {gs : List GlobalData} (hPlaced : GlobalData.Placed done.length gs)
    (hgs : ∀ g ∈ gs, g.Typed ∧ g.value.Storable) :
    ∃ r, gs.foldlM (fun (s : Bytes × Heap) g => addGlobal s.1 s.2 g) (done, heap) = .ok r := by
  induction gs generalizing done heap with
  | nil => exact ⟨_, rfl⟩
  | cons g gs ih =>
    obtain ⟨hTyped, hStorable⟩ := hgs g (by simp)
    obtain ⟨⟨next, heap'⟩, hFirst⟩ := @addGlobal_succeeds done heap g hTyped hStorable hPlaced.1
    have hNext : next.length = done.length + globalHeaderSize g.name + g.ty.size := by
      rw [(addGlobal_eq_ok hTyped hFirst).2.1, length_append, hTyped.length_record, Nat.add_assoc]
    obtain ⟨r, hRest⟩ := @ih next heap' (hNext ▸ hPlaced.2) fun w hw => hgs w (by simp [hw])
    refine ⟨r, ?_⟩
    rw [foldlM_cons, hFirst]
    exact hRest

/-- Globals that stand at their places are written. -/
theorem writeGlobals_succeeds {gs : List GlobalData} (hPlaced : GlobalData.Placed 0 gs)
    (hgs : ∀ g ∈ gs, g.Typed ∧ g.value.Storable) : ∃ r, writeGlobals gs = .ok r :=
  foldlM_addGlobal_succeeds hPlaced hgs

end Image

def GlobalVar.head (v : GlobalVar) : GlobalVar := { v with init := .missing }

/-- The symbols of global variables are numbered in their order, from a number on. -/
def GlobalVar.NumberedFrom (round : Nat) : Nat → List GlobalVar → Prop
  | _, [] => True
  | i, v :: vs =>
    (∃ s, v.entry = some s ∧ s.kind = .global ∧ s.index = i ∧ s.round = round) ∧
      NumberedFrom round (i + 1) vs

/-- Variables that differ in their initial values only have the same types. -/
theorem GlobalVar.map_ty_eq {ws : List GlobalVar} (h : vs.map head = ws.map head) :
    vs.map (·.ty) = ws.map (·.ty) := by
  have hTypes := congrArg (List.map GlobalVar.ty) h
  rw [map_map, map_map] at hTypes
  exact hTypes

theorem GlobalVar.numberedFrom_head : NumberedFrom round i (vs.map head) ↔ NumberedFrom round i vs := by
  induction vs generalizing i with
  | nil => rfl
  | cons v vs ih => exact and_congr Iff.rfl ih

namespace Declares

variable {d d' : Declaring}

/-- Global variables are declared with the next numbers. -/
theorem globals_numbered {pos : Pos} {gs' : List Global} (h : gs.mapM (global pos) d = (gs', d'))
    (hNone : d'.diagnostics = []) :
    GlobalVar.NumberedFrom d.round d.globals (gs'.filterMap Global.var?) ∧
      (gs'.filterMap Global.var?).map (·.ty) = (gs.filterMap Global.var?).map (·.ty) := by
  induction gs generalizing d gs' with
  | nil =>
    cases h
    exact ⟨trivial, rfl⟩
  | cons g gs ih =>
    obtain ⟨g', d₁, gs', hg, hgs, rfl⟩ := state_mapM_cons.mp h
    have hBefore := (globals_keep hgs).diagnostics_eq_nil hNone
    obtain ⟨hRest, hTypes⟩ := ih hgs
    obtain ⟨hCount, _⟩ := global_counts hg
    rw [(global_goes hg).round, hCount] at hRest
    obtain ⟨rfl, rfl, hReport⟩ | ⟨v, v', rfl, rfl, hVar⟩ | ⟨f, f', rfl, rfl, hFunction⟩ :=
      global_cases hg
    · exact ⟨hRest, hTypes⟩
    · obtain ⟨init, d₂, entry, hInit, hDeclare, rfl⟩ := globalVar_steps hVar
      cases hInit
      have hEntry := (@declare_keeps (fun _ => True) _ _ _ _ _ hDeclare trivial).2 hBefore
      exact ⟨⟨⟨_, hEntry, rfl, rfl, rfl⟩, hRest⟩, congrArg (v.ty :: ·) hTypes⟩
    · exact ⟨hRest, hTypes⟩

end Declares

namespace Script

/-- What changes no notes of the declaration of names leaves all but the initial values as they are. -/
theorem heads_of_forget (h : os.map (·.forget .declared) = gs.map (·.forget .declared)) :
    (os.filterMap Global.var?).map GlobalVar.head = (gs.filterMap Global.var?).map GlobalVar.head := by
  have hHeads : ∀ gs : List Global, (gs.filterMap Global.var?).map GlobalVar.head =
      (gs.map (·.forget .declared)).filterMap fun g => g.var?.map GlobalVar.head := by
    intro gs
    rw [map_filterMap, filterMap_map]
    refine filterMap_congr fun g _ => ?_
    cases g <;> rfl
  rw [hHeads, h, hHeads]

theorem resolve_heads {s : Script} {ds : List Diagnostic} (h : s.resolve = .ok (t, ds)) :
    t.globalVars.map GlobalVar.head = s.globalVars.map GlobalVar.head :=
  heads_of_forget (congrArg Script.globals (resolve_keeps (by decide) h))

/-- The initial values of global variables are recorded one after the other. -/
inductive Records : Constants → List GlobalVar → Constants → Prop where
  | nil (cs : Constants) : Records cs [] cs
  | cons {cs cs' ds : Constants} {v w : GlobalVar} {vs : List GlobalVar}
      (h : checkGlobalVar cs v = .ok ((w, cs'), [])) (hRest : Records cs' vs ds) : Records cs (v :: vs) ds

theorem checkGlobals_records (h : checkGlobals cs gs = .ok ((os, ds), [])) :
    Records cs (gs.filterMap Global.var?) ds := by
  induction gs generalizing os cs with
  | nil =>
    cases h
    exact .nil _
  | cons g gs ih =>
    obtain ⟨o, rest, cs₁, ho, hRest, rfl⟩ := checkGlobals_cons_nothing.mp h
    cases g with
    | missing =>
      cases ho
      exact ih hRest
    | function f =>
      obtain ⟨_, _, _, rfl⟩ := checkGlobal_function.mp ho
      exact ih hRest
    | var v =>
      obtain ⟨w, hw, _⟩ := checkGlobal_var.mp ho
      exact .cons hw (ih hRest)

/-- A global variable in which nothing is found records a value that can be stored. -/
theorem checkGlobalVar_storable {v w : GlobalVar} (hcs : cs.Storable) (hv : v.ty.isValue = true)
    (h : checkGlobalVar cs v = .ok ((w, ds), [])) : ds.Storable := by
  cases checkGlobalVar_outcome h with
  | zero => exact List.forall_mem_cons.mpr ⟨Value.zero_storable hv, hcs⟩
  | found hInfer hFound => exact absurd rfl hFound
  | value hInfer hFits hFold hConvert =>
    have hValue := Expr.fold_storable hcs _ _ hFold
    exact List.forall_mem_cons.mpr ⟨Value.convert?_storable hValue hConvert, hcs⟩

/-- A value of its type is recorded for each variable. -/
theorem Records.known (h : Records cs vs ds) (hNumbered : GlobalVar.NumberedFrom round i vs) :
    ∀ c ∈ ds.known, c ∈ cs.known ∨
      ∃ j v, vs[j]? = some v ∧ c = ((round, i + j), v.ty) := by
  induction h generalizing i with
  | nil => exact fun c hc => Or.inl hc
  | @cons cs _ _ v _ vs hw _ ih =>
    obtain ⟨⟨s, hEntry, _, hIndex, hRound⟩, hNumbered⟩ := hNumbered
    obtain ⟨k, c, hk, rfl, hTy, _⟩ := checkGlobalVar_records hw
    cases hEntry.symm.trans hk
    intro c hc
    rcases ih hNumbered c hc with hBefore | ⟨j, u, hj, rfl⟩
    · rw [Constants.known, map_cons, hTy, mem_cons] at hBefore
      rcases hBefore with rfl | hBefore
      · exact Or.inr ⟨0, v, rfl, by rw [hIndex, hRound]; rfl⟩
      · exact Or.inl hBefore
    · exact Or.inr ⟨j + 1, u, hj, by rw [Nat.add_assoc, Nat.add_comm 1 j]⟩

/-- The values that are recorded for variables of value types can be stored. -/
theorem Records.storable (h : Records cs vs ds) (hcs : cs.Storable)
    (hValues : ∀ v ∈ vs, v.ty.isValue = true) : ds.Storable := by
  induction h with
  | nil => exact hcs
  | cons hw _ ih =>
    rw [forall_mem_cons] at hValues
    exact ih (checkGlobalVar_storable hcs hValues.1 hw) hValues.2

/-- The constants that the type analysis has recorded for global variables have their types. -/
theorem check_constants {s : Script} (h : s.check [] = .ok ((t, cs), []))
    (hNumbered : GlobalVar.NumberedFrom round 0 s.globalVars) :
    t.globalVars.map GlobalVar.head = s.globalVars.map GlobalVar.head ∧
      GlobalVar.NumberedFrom round 0 t.globalVars ∧
      ∀ j v c, t.globalVars[j]? = some v → cs.lookup (round, j) = some c → c.value.ty = v.ty := by
  obtain ⟨globals, _, hGlobals, _, rfl⟩ := check_parts h
  have hHeads := heads_of_forget (checkGlobals_keeps hGlobals)
  have hKnown := (checkGlobals_records hGlobals).known hNumbered
  have hTypes := GlobalVar.map_ty_eq hHeads
  refine ⟨hHeads, ?_, fun j v c hj hc => ?_⟩
  · exact GlobalVar.numberedFrom_head.mp (hHeads ▸ GlobalVar.numberedFrom_head.mpr hNumbered)
  · obtain ⟨_, _, hSplit, _⟩ := List.lookup_eq_some_iff.mp hc
    have hMem : ((round, j), c.value.ty) ∈ cs.known :=
      List.mem_map.mpr ⟨((round, j), c), by simp [hSplit], rfl⟩
    obtain hNone | ⟨k, w, hw, hEq⟩ := hKnown _ hMem
    · cases hNone
    · simp only [Prod.mk.injEq, true_and, Nat.zero_add] at hEq
      obtain ⟨rfl, hTy⟩ := hEq
      have hSame : ((globals.filterMap Global.var?).map (·.ty))[j]? =
          ((s.globals.filterMap Global.var?).map (·.ty))[j]? := congrArg (·[j]?) hTypes
      rw [List.getElem?_map, List.getElem?_map, hw] at hSame
      have hv : (globals.filterMap Global.var?)[j]? = some v := hj
      rw [hv] at hSame
      rw [hTy]
      exact (Option.some.inj hSame).symm

/-- Global variables whose initial values are settled, `i` of them standing before the given ones. -/
structure SettledFrom (round i : Nat) (constants : Constants) (vs : List GlobalVar) : Prop where
  numbered : GlobalVar.NumberedFrom round i vs
  values : ∀ v ∈ vs, v.ty.isValue = true
  storable : constants.Storable
  known : ∀ j v c, vs[j]? = some v → constants.lookup (round, i + j) = some c → c.value.ty = v.ty

theorem SettledFrom.tail {v : GlobalVar} (h : SettledFrom round i constants (v :: vs)) :
    SettledFrom round (i + 1) constants vs where
  numbered := h.numbered.2
  values := fun w hw => h.values w (by simp [hw])
  storable := h.storable
  known := fun j w c hj hc => h.known (j + 1) w c hj (by rwa [Nat.add_assoc, Nat.add_comm 1 j] at hc)

/-- The value that a settled global starts with has its type and can be stored. -/
theorem SettledFrom.value {v : GlobalVar} {s : Symbol} (h : SettledFrom round i constants (v :: vs))
    (hKind : s.kind = .global) (hIndex : s.index = i) (hRound : s.round = round) :
    ((constants.value? s).getD (.zero v.ty)).ty = v.ty ∧
      ((constants.value? s).getD (.zero v.ty)).Storable := by
  have hLookup : constants.value? s = (constants.lookup (round, i)).map (·.value) := by
    rw [Constants.value?, Constants.constant?, if_pos hKind, hIndex, hRound]
  rw [hLookup]
  cases hc : constants.lookup (round, i) with
  | none => exact ⟨Value.zero_ty _, Value.zero_storable (h.values v (by simp))⟩
  | some c => exact ⟨h.known 0 v c rfl hc, h.storable.lookup hc⟩

/-- Types of values that are numbered in order are settled by the type analysis. -/
theorem check_settled {s : Script} (h : s.check [] = .ok ((t, cs), []))
    (hValues : ∀ v ∈ s.globalVars, v.ty.isValue = true)
    (hNumbered : GlobalVar.NumberedFrom round 0 s.globalVars) :
    t.globalVars.map GlobalVar.head = s.globalVars.map GlobalVar.head ∧
      SettledFrom round 0 cs t.globalVars := by
  obtain ⟨hHeads, hNumbered', hKnown⟩ := check_constants h hNumbered
  refine ⟨hHeads, hNumbered', fun v hv => ?_, ?_, fun j v c hj hc => ?_⟩
  · obtain ⟨w, hw, hSame⟩ := exists_of_map_eq (GlobalVar.map_ty_eq hHeads) hv
    exact hSame ▸ hValues w hw
  · obtain ⟨globals, _, hGlobals, _, rfl⟩ := check_parts h
    exact (checkGlobals_records hGlobals).storable (by simp [Constants.Storable]) hValues
  · rw [Nat.zero_add] at hc
    exact hKnown j v c hj hc

/-- The data of settled globals: they stand at the places that the code uses for them. -/
theorem emitGlobals_placed {e : Surroundings} {start : Nat} {ds : List GlobalData}
    (hSettled : SettledFrom round i e.constants vs) (hPlaced : e.placed.contains round = true)
    (hOffsets : e.globals.drop i = globalOffsets start vs) (h : emitGlobals e vs = .ok ds) :
    GlobalData.Placed start ds ∧ ds.map (·.offset) = (e.globals.drop i).map Int.ofNat ∧
      ∀ d ∈ ds, d.Typed ∧ d.value.Storable := by
  induction vs generalizing i start ds with
  | nil =>
    cases h
    rw [hOffsets]
    exact ⟨trivial, rfl, by simp⟩
  | cons v vs ih =>
    simp only [emitGlobals, bind_eq_ok, need_eq_ok, pure_eq_ok] at h
    obtain ⟨s, hEntry, rest, hRest, rfl⟩ := h
    obtain ⟨k, hk, hKind, hIndex, hRound⟩ := hSettled.numbered.1
    cases hEntry.symm.trans hk
    have hNext : e.globals.drop (i + 1) =
        globalOffsets (start + Image.globalHeaderSize v.name + v.ty.size) vs := by
      rw [← tail_drop, hOffsets]
      rfl
    have hHead : e.globals[i]? = some (start + Image.globalHeaderSize v.name) := by
      rw [← List.head?_drop, hOffsets]
      rfl
    have hOffset : (if e.placed.contains s.round then e.globals.getD s.index 0 else 0) =
        start + Image.globalHeaderSize v.name := by
      rw [hRound, if_pos hPlaced, hIndex, getD_eq_getElem?_getD, hHead]
      rfl
    obtain ⟨hLaid, hSame, hTyped⟩ := ih hSettled.tail hNext hRest
    obtain ⟨hTy, hStorable⟩ := hSettled.value hKind hIndex hRound
    rw [hOffset]
    refine ⟨⟨by push_cast; rfl, hLaid⟩, ?_, ?_⟩
    · rw [hOffsets, globalOffsets, map_cons, map_cons, hSame, hNext]
      rfl
    · simp only [mem_cons, forall_eq_or_imp]
      exact ⟨⟨⟨hSettled.values v (by simp), hTy⟩, hStorable⟩, hTyped⟩

end Script

namespace Session

variable {script : Script} {library : Library} {privileged : Bool} {s : Session}

/-- The script as the check of types finds it: its variables are numbered and have the types that the
script gives them. -/
theorem analyze_checks (h : (start script library privileged).analyze = .ok s) (hFailed : s.failed = false) :
    ∃ t : Script, t.check [] = .ok ((s.script, s.constants), []) ∧
      GlobalVar.NumberedFrom 1 0 t.globalVars ∧
      t.globalVars.map (·.ty) = script.globalVars.map (·.ty) := by
  obtain ⟨s₁, s₂, s₃, cs, ds, hDeclare, hResolve, hCheck, _, _, rfl⟩ := analyze_steps h hFailed
  obtain ⟨globals, d, _, sts, _, hGlobals, hNone, _, _, _, rfl⟩ := Script.declare_parts hDeclare
  obtain ⟨hNumbered, hDeclared⟩ := Declares.globals_numbered hGlobals hNone
  have hResolved := Script.resolve_heads hResolve
  refine ⟨s₂, hCheck, ?_, ?_⟩
  · exact GlobalVar.numberedFrom_head.mp (hResolved ▸ GlobalVar.numberedFrom_head.mpr hNumbered)
  · rw [GlobalVar.map_ty_eq hResolved]
    exact hDeclared

/-- The initial values that the analyses record have the types of their variables. -/
theorem analyze_constants (h : (start script library privileged).analyze = .ok s)
    (hFailed : s.failed = false) : GlobalVar.NumberedFrom 1 0 s.script.globalVars ∧
      ∀ j v c, s.script.globalVars[j]? = some v → s.constants.lookup (1, j) = some c →
        c.value.ty = v.ty := by
  obtain ⟨t, hCheck, hNumbered, _⟩ := analyze_checks h hFailed
  exact (Script.check_constants hCheck hNumbered).2

theorem analyze_globals (h : (start script library privileged).analyze = .ok s)
    (hFailed : s.failed = false) (hValues : ∀ v ∈ script.globalVars, v.ty.isValue = true) :
    Script.SettledFrom 1 0 s.constants s.script.globalVars ∧
      s.script.globalVars.length = script.globalVars.length := by
  obtain ⟨t, hCheck, hNumbered, hTypes⟩ := analyze_checks h hFailed
  have hValues' : ∀ v ∈ t.globalVars, v.ty.isValue = true := by
    intro v hv
    obtain ⟨w, hw, hSame⟩ := exists_of_map_eq hTypes hv
    exact hSame ▸ hValues w hw
  obtain ⟨hChecked, hSettled⟩ := Script.check_settled hCheck hValues' hNumbered
  refine ⟨hSettled, ?_⟩
  have hLength := congrArg List.length ((GlobalVar.map_ty_eq hChecked).trans hTypes)
  simpa only [length_map] using hLength

end Session
end Lsl
