import Lsl.Proofs.Programs
import Lsl.Proofs.RenewedNotes

/-! What later analyses and the code of a script do not depend on. Its paths and frames do not depend on
notes. Places, initial values and labels are looked up under the numbers of declaration runs; as long as two
sides find the same for each symbol, they give the same code. -/
namespace Lsl

open List

variable {ss : List Stmt} {es : List Expr} {α : Type}

variable {n : Renoting} {g g' : Nat → Nat}

namespace Paths

theorem stmts_renote {owner place : Position} {ended : Bool}
    (h : ∀ s ∈ ss, ∀ place, stmt owner place (s.renote n) = stmt owner place s) :
    stmts owner place ended (Stmt.renoteAll n ss) = stmts owner place ended ss := by
  induction ss generalizing ended with
  | nil => rfl
  | cons s ss ih =>
    have hHead := h s (by simp)
    have hTail := fun ended => @ih ended fun t ht => h t (by simp [ht])
    cases s with
    | label => simp only [Stmt.renoteAll, Stmt.renote, stmts, hTail]
    | _ =>
      simp only [Stmt.renote] at hHead
      simp only [Stmt.renoteAll, Stmt.renote, stmts, hTail, hHead, Stmt.pos]

theorem stmt_renote (owner : Position) (s : Stmt) (place : Position) :
    stmt owner place (s.renote n) = stmt owner place s := by
  induction s generalizing place with
  | block p scope ss ih => exact stmts_renote ih
  | ifThen p c ts t es e iht ihe => simp only [Stmt.renote, stmt, iht, ihe, Stmt.isMissing_renote]
  | whileLoop | doWhile | forLoop => simp only [Stmt.renote, stmt, *]
  | ret p x => simp only [Stmt.renote, stmt, Expr.isMissing_renote]
  | _ => rfl

theorem run_renote (owner : Position) (body : Option Block) :
    run owner (body.map (·.renote n)) = run owner body := by
  cases body with
  | none => rfl
  | some b =>
    have hStmts : stmts owner owner false (b.renote n).stmts = stmts owner owner false b.stmts :=
      stmts_renote fun s _ => stmt_renote owner s
    exact congrArg (fun m => Except.ok ((m {}).1, (m {}).2.diagnostics)) hStmts

end Paths

namespace Script

theorem functions_renote (s : Script) : (s.renote n).functions = s.functions.map (·.renote n) := by
  rw [functions, functions, map_filterMap]
  show (s.globals.map (·.renote n)).filterMap _ = _
  rw [filterMap_map]
  refine filterMap_congr fun o _ => ?_
  cases o <;> rfl

theorem globalVars_renote (s : Script) : (s.renote n).globalVars = s.globalVars.map (·.renote n) := by
  rw [globalVars, globalVars, map_filterMap]
  show (s.globals.map (·.renote n)).filterMap _ = _
  rw [filterMap_map]
  refine filterMap_congr fun o _ => ?_
  cases o <;> rfl

theorem untilError_map {f : α → α} {step : α → Except Fault (List Diagnostic)}
    (h : ∀ a, step (f a) = step a) (as : List α) : untilError step (as.map f) = untilError step as := by
  induction as with
  | nil => rfl
  | cons a as ih => simp only [map_cons, untilError, h, ih]

/-- The paths of a script do not depend on notes. -/
theorem paths_renote (s : Script) : (s.renote n).paths = s.paths := by
  have hFunction : ∀ f : Function, functionPaths (f.renote n) = functionPaths f := by
    intro f
    have hRun := fun owner => @Paths.run_renote n owner f.body
    simp only [functionPaths, Function.renote, hRun]
  have hHandler : ∀ h : Option Handler, handlerPaths (h.map (·.renote n)) = handlerPaths h := by
    intro h
    cases h with
    | none => rfl
    | some h => exact congrArg (· >>= fun r => pure r.2) (Paths.run_renote .handler h.body)
  have hState : ∀ st : Option State, statePaths (st.map (·.renote n)) = statePaths st := by
    intro st
    cases st with
    | none => rfl
    | some st => exact untilError_map hHandler st.events
  have hStates : untilError statePaths (s.renote n).states = untilError statePaths s.states :=
    untilError_map hState s.states
  simp only [paths, functions_renote, untilError_map hFunction, hStates]

end Script

namespace Stmt

theorem localsBoundAll_renumber (h : ∀ s ∈ ss, (s.renote g).localsBound = s.localsBound) :
    localsBoundAll (renoteAll g ss) = localsBoundAll ss := by
  induction ss with
  | nil => rfl
  | cons s ss ih => simp only [renoteAll, localsBoundAll, h s (by simp), ih fun t ht => h t (by simp [ht])]

theorem localsBound_renumber (s : Stmt) : (s.renote g).localsBound = s.localsBound := by
  induction s with
  | block p scope ss ih => exact localsBoundAll_renumber ih
  | decl p name ty x entry => exact Option.isSome_map
  | ifThen p c ts t es e iht ihe => simp only [renote, localsBound, iht, ihe]
  | whileLoop | doWhile | forLoop => assumption
  | _ => rfl

end Stmt

namespace Script

theorem requireFrame_renumber (entry : Option Symbol) (ps : List Param) (body : Option Block) :
    requireFrame (entry.map (·.renumber g)) (ps.map (·.renote g)) (body.map (·.renote g)) =
      requireFrame entry ps body := by
  have hParams : (ps.map (·.renote g)).all (·.entry.isSome) = ps.all (·.entry.isSome) := by
    simp [all_map, Function.comp_def, Param.renote]
  cases body with
  | none => rfl
  | some b =>
    have hLocals : Stmt.localsBoundAll (b.renote g).stmts = Stmt.localsBoundAll b.stmts :=
      Stmt.localsBoundAll_renumber fun s _ => s.localsBound_renumber
    simp only [requireFrame, Option.map_some, Fault.need, ok_bind, Option.isSome_map, hParams, hLocals]

theorem forM_map_eq {f : α → α} {step : α → Except Fault Unit} (h : ∀ a, step (f a) = step a)
    (as : List α) :
    (as.map f).forM step = as.forM step := by
  show forM (as.map f) step = forM as step
  rw [forM_map]
  exact congrArg _ (funext h)

/-- Whether everything has its symbol does not depend on the numbers of runs. -/
theorem requireEntries_renumber (s : Script) : (s.renote g).requireEntries = s.requireEntries := by
  have hGlobal : ∀ o : Global, requireGlobal (o.renote g) = requireGlobal o := by
    intro o
    cases o with
    | missing => rfl
    | var v =>
      obtain ⟨pos, name, ty, init, entry⟩ := v
      cases entry <;> rfl
    | function f => exact requireFrame_renumber f.entry f.params f.body
  have hHandler : ∀ h : Option Handler, requireHandler (h.map (·.renote g)) = requireHandler h := by
    intro h
    cases h with
    | none => rfl
    | some h => exact requireFrame_renumber h.entry h.params h.body
  have hState : ∀ st : Option State, requireState (st.map (·.renote g)) = requireState st := by
    intro st
    cases st with
    | none => rfl
    | some st =>
      obtain ⟨pos, name, events, entry, scope⟩ := st
      cases entry with
      | none => rfl
      | some sym => exact forM_map_eq hHandler events
  have hGlobals : (s.renote g).globals.forM requireGlobal = s.globals.forM requireGlobal :=
    forM_map_eq hGlobal s.globals
  have hStates : (s.renote g).states.forM requireState = s.states.forM requireState :=
    forM_map_eq hState s.states
  rw [requireEntries, hGlobals, hStates, requireEntries]

end Script

variable {Q : Constants → Constants → Prop} {e e' : Surroundings}

/-- Surroundings in which the symbols of one script have the same places and values under two numberings. -/
structure Surroundings.Tracks (g g' : Nat → Nat) (Q : Constants → Constants → Prop)
    (e e' : Surroundings) :
    Prop where
  placed : ∀ r, e.placed.contains (g r) = e'.placed.contains (g' r)
  constants : Q e.constants e'.constants
  globals : e'.globals = e.globals
  frame : e'.frame = e.frame
  result : e'.result = e.result
  unwind : e'.unwind = e.unwind

namespace Surroundings.Tracks

theorem offset_eq (h : Tracks g g' Q e e') (s : Symbol) :
    e.offset (s.renumber g) = e'.offset (s.renumber g') := by
  have hPlaced := h.placed s.round
  simp only [offset, Symbol.renumber, hPlaced, h.globals, h.frame]
  rfl

theorem index_eq (h : Tracks g g' Q e e') (s : Symbol) :
    e.index (s.renumber g) = e'.index (s.renumber g') := by
  have hPlaced := h.placed s.round
  simp only [index, Symbol.renumber, hPlaced]
  rfl

theorem callInstr_eq (h : Tracks g g' Q e e') (s : Symbol) :
    Expr.callInstr e (s.renumberVisible g) = Expr.callInstr e' (s.renumberVisible g') := by
  by_cases hLibrary : s.kind = .library
  · simp [Symbol.renumberVisible, Expr.callInstr, index, hLibrary]
  · have hIndex := h.index_eq s
    simp only [Symbol.renumberVisible, if_neg hLibrary, Expr.callInstr, hIndex]
    rfl

theorem load_eq (h : Tracks g g' Q e e') (v : Ident) : e.load (v.renote g) = e'.load (v.renote g') := by
  obtain ⟨pos, name, member, entry, ty⟩ := v
  cases entry with
  | none => rfl
  | some s =>
    simp only [load, Ident.renote, Option.map_some, Fault.need, ok_bind, h.offset_eq]
    rfl

theorem store_eq (h : Tracks g g' Q e e') (v : Ident) (keep : Bool) :
    e.store (v.renote g) keep = e'.store (v.renote g') keep := by
  obtain ⟨pos, name, member, entry, ty⟩ := v
  cases entry with
  | none => rfl
  | some s =>
    simp only [store, Ident.renote, Option.map_some, Fault.need, ok_bind, h.offset_eq]
    rfl

theorem exit_eq (h : Tracks g g' Q e e') : e.exit = e'.exit := by
  rw [exit, exit, h.unwind]

end Surroundings.Tracks

namespace Expr

@[simp] theorem typeOf_renumber (x : Expr) : (x.renote g).typeOf = x.typeOf := by cases x <;> rfl

theorem length_renoteAll (es : List Expr) : (renoteAll g es).length = es.length := by
  simp [renoteAll_eq_map]

theorem assignCode_renumber (h : Surroundings.Tracks g g' Q e e') (op : Operator) (v : Option Ident) (t : Ty)
    (value : List Instr) (la ra : Ty) (keep : Bool) :
    assignCode e op (v.map (·.renote g)) t value la ra keep =
      assignCode e' op (v.map (·.renote g')) t value la ra keep := by
  cases v with
  | none => rfl
  | some v =>
    have hLoad := h.load_eq v
    have hStore := h.store_eq v keep
    simp only [assignCode, Option.map_some, Fault.need, ok_bind, hLoad, hStore]
    rfl

theorem incDecCode_renumber (h : Surroundings.Tracks g g' Q e e') (d b : Bool) (v : Option Ident)
    (keep : Bool) :
    incDecCode e d b (v.map (·.renote g)) keep = incDecCode e' d b (v.map (·.renote g')) keep := by
  cases v with
  | none => rfl
  | some v =>
    have hLoad := h.load_eq v
    have hStore := fun keep => h.store_eq v keep
    simp only [incDecCode, Option.map_some, Fault.need, ok_bind, hLoad, hStore]
    rfl

theorem codeAll_renumber (ih : ∀ x ∈ es, (x.renote g).code e = (x.renote g').code e') :
    codeAll e (renoteAll g es) = codeAll e' (renoteAll g' es) := by
  induction es with
  | nil => rfl
  | cons x es ihs => simp only [renoteAll, codeAll, ih x (by simp), ihs fun y hy => ih y (by simp [hy])]

theorem codeArgs_renumber (ih : ∀ x ∈ es, (x.renote g).code e = (x.renote g').code e')
    (params : List Ty) :
    codeArgs e params (renoteAll g es) = codeArgs e' params (renoteAll g' es) := by
  induction es generalizing params with
  | nil => simp only [renoteAll, codeArgs]
  | cons x es ihs =>
    have hHead := ih x (by simp)
    have hTail := fun params => ihs (fun y hy => ih y (by simp [hy])) params
    cases params with
    | nil => rfl
    | cons param params => simp only [renoteAll, codeArgs, hHead, hTail, typeOf_renumber]

/-- The code of an expression does not depend on the numbers of runs. -/
theorem code_renumber (hQ : Tracks g g' Q) (h : Surroundings.Tracks g g' Q e e') (x : Expr) :
    (x.renote g).code e = (x.renote g').code e' := by
  induction x with
  | missing | int | float | string => rfl
  | ident v => exact h.load_eq v
  | vector p x y z t ihx ihy ihz =>
    have hFold := fold_renumber hQ h.constants (vector p x y z t)
    simp only [renote] at hFold
    simp only [renote, code, hFold, ihx, ihy, ihz, typeOf_renumber]
  | rotation p x y z s t ihx ihy ihz ihs =>
    have hFold := fold_renumber hQ h.constants (rotation p x y z s t)
    simp only [renote] at hFold
    simp only [renote, code, hFold, ihx, ihy, ihz, ihs, typeOf_renumber]
  | list p es t ih =>
    have hFold := fold_renumber hQ h.constants (list p es t)
    simp only [renote] at hFold
    simp only [renote, code, hFold, codeAll_renumber ih, length_renoteAll]
  | unary | binary | cast | paren | print => simp only [renote, code, typeOf_renumber, *]
  | assign p op v x la ra t ih => simp only [renote, code, ih, typeOf_renumber, assignCode_renumber h]
  | incDec p d b v t => exact incDecCode_renumber h d b v true
  | call p name es c t ih =>
    cases c with
    | none => rfl
    | some s =>
      simp only [renote, code, Option.map_some, Fault.need, ok_bind, codeArgs_renumber ih,
        Symbol.renumberVisible_ty, Symbol.renumberVisible_params, h.callInstr_eq]

theorem discard_renumber (hQ : Tracks g g' Q) (h : Surroundings.Tracks g g' Q e e') (x : Expr) :
    (x.renote g).discard e = (x.renote g').discard e' := by
  have hCode := code_renumber hQ h
  have hSelf := hCode x
  induction x with
  | assign p op v x la ra t ih => simp only [renote, discard, hCode, typeOf_renumber, assignCode_renumber h]
  | incDec p d b v t => exact incDecCode_renumber h d b v false
  | paren p x t ih => exact ih (hCode x)
  | ident v =>
    simp only [renote] at hSelf
    simp only [renote, discard, hSelf]
    rfl
  | _ =>
    simp only [renote] at hSelf
    simp only [renote, discard, hSelf, typeOf, ty]

theorem discardAll_renumber (hQ : Tracks g g' Q) (h : Surroundings.Tracks g g' Q e e') (es : List Expr) :
    discardAll e (renoteAll g es) = discardAll e' (renoteAll g' es) := by
  induction es with
  | nil => rfl
  | cons x es ih => simp only [renoteAll, discardAll, discard_renumber hQ h, ih]

end Expr

/-- Labels given out alike under two numberings. -/
structure Labels.Alike (T : List ((Nat × Nat) × Label) → List ((Nat × Nat) × Label) → Prop)
    (l l' : Labels) :
    Prop where
  last : l'.last = l.last
  known : T l.known l'.known

namespace Emits

variable {β : Type} {T : List ((Nat × Nat) × Label) → List ((Nat × Nat) × Label) → Prop}

/-- Two steps that give the same, or fail in the same way, where labels were given out alike. -/
def Alike (T : List ((Nat × Nat) × Label) → List ((Nat × Nat) × Label) → Prop) (m m' : Emits α) :
    Prop :=
  ∀ l l', Labels.Alike T l l' →
    Parallel (fun r r' => r'.1 = r.1 ∧ Labels.Alike T r.2 r'.2) (m l) (m' l')

namespace Alike

variable {m m' : Emits α} {k k' : α → Emits β}

theorem pure (a : α) : Alike T (pure a) (pure a) := fun _ _ h => .ok ⟨rfl, h⟩

theorem bind (h : Alike T m m') (hRest : ∀ a, Alike T (k a) (k' a)) : Alike T (m >>= k) (m' >>= k') := by
  intro l l' hl
  refine .bind (h l l' hl) ?_
  rintro ⟨a, l₁⟩ ⟨a', l₁'⟩ ⟨hSame, hl₁⟩
  obtain rfl : a' = a := hSame
  exact hRest a' l₁ l₁' hl₁

theorem lift {x x' : Except Fault α} (h : x = x') : Alike T (liftM x : Emits α) (liftM x') := by
  subst h
  intro l l' hl
  cases x with
  | error e => exact .fault e
  | ok a => exact .ok ⟨rfl, hl⟩

theorem need {γ : Type} {view view' : γ → α} {e : Fault} (part : Option γ)
    (hRest : ∀ c, Alike T (k (view c)) (k' (view' c))) :
    Alike T (liftM (e.need (part.map view)) >>= k) (liftM (e.need (part.map view')) >>= k') := by
  cases part with
  | none => exact fun _ _ _ => .fault e
  | some c => exact hRest c

theorem mapM {γ : Type} {step step' : γ → Emits α} {view view' : γ → γ} {cs : List γ}
    (h : ∀ c ∈ cs, Alike T (step (view c)) (step' (view' c))) :
    Alike T ((cs.map view).mapM step) ((cs.map view').mapM step') := by
  induction cs with
  | nil => exact .pure []
  | cons c cs ih =>
    simp only [map_cons, mapM_cons]
    refine .bind (h c (by simp)) fun a => .bind (ih fun x hx => h x (by simp [hx])) fun as => ?_
    exact .pure (a :: as)

theorem fresh : Alike T fresh fresh := by
  intro l l' hl
  have hNext : l'.last + 1 = l.last + 1 := by rw [hl.last]
  exact .ok ⟨hNext, hNext, hl.known⟩

theorem labelOf (hT : Tracks g g' T) (s : Symbol) :
    Alike T (labelOf (s.renumber g)) (labelOf (s.renumber g')) := by
  intro l l' hl
  have hLook := hT.look _ _ hl.known s
  rw [emits_labelOf_eq.mpr ⟨rfl, rfl⟩, emits_labelOf_eq.mpr ⟨rfl, rfl⟩]
  simp only [Symbol.key] at hLook
  refine .ok ⟨by simp only [Labels.labelFor, hLook, hl.last], ?_⟩
  unfold Labels.asked
  rw [hLook]
  cases l'.known.lookup ((s.renumber g').round, (s.renumber g').index) with
  | some n => exact hl
  | none =>
    have hNext : l'.last + 1 = l.last + 1 := by rw [hl.last]
    refine ⟨hNext, ?_⟩
    rw [hNext]
    exact hT.note _ _ hl.known s (l.last + 1)

end Alike

end Emits

namespace Stmt

variable {T : List ((Nat × Nat) × Label) → List ((Nat × Nat) × Label) → Prop}

theorem initCode_renumber (hQ : Tracks g g' Q) (h : Surroundings.Tracks g g' Q e e') (ty : Ty) (x : Expr) :
    initCode e ty (x.renote g) = initCode e' ty (x.renote g') := by
  have hCode := Expr.code_renumber hQ h x
  cases x with
  | missing => rfl
  | _ => exact congrArg (· >>= fun c => pure (c ++ coerce _ ty)) hCode

theorem resultCode_present {x : Expr} (hPresent : x.isMissing = false) : resultCode e x =
    if e.result = .void then .ok []
    else do return (← x.code e) ++ coerce x.ty e.result ++ [Instr.returnValue e.result] := by
  cases x <;> first | rfl | cases hPresent

theorem resultCode_renumber (hQ : Tracks g g' Q) (h : Surroundings.Tracks g g' Q e e') (x : Expr) :
    resultCode e (x.renote g) = resultCode e' (x.renote g') := by
  obtain rfl | hPresent := x.missing_or_present
  · rfl
  · rw [resultCode_present ((x.isMissing_renote).trans hPresent),
      resultCode_present ((x.isMissing_renote).trans hPresent), h.result, Expr.code_renumber hQ h,
      Expr.ty_renumber, Expr.ty_renumber]

theorem branchNot_renumber (hQ : Tracks g g' Q) (h : Surroundings.Tracks g g' Q e e') (x : Expr) (n : Label) :
    branchNot e (x.renote g) n = branchNot e' (x.renote g') n := by
  simp only [branchNot, Expr.code_renumber hQ h, Expr.typeOf_renumber]

theorem loopTest_renumber (hQ : Tracks g g' Q) (h : Surroundings.Tracks g g' Q e e') (x : Expr) (n : Label) :
    loopTest e (x.renote g) n = loopTest e' (x.renote g') n := by
  simp only [loopTest, Expr.isMissing_renote, branchNot_renumber hQ h]

theorem codeAll_renumber (ih : ∀ s ∈ ss, Emits.Alike T (code e (s.renote g)) (code e' (s.renote g'))) :
    Emits.Alike T (codeAll e (renoteAll g ss)) (codeAll e' (renoteAll g' ss)) := by
  induction ss with
  | nil => exact .pure []
  | cons s ss ihs =>
    refine .bind (ih s (by simp)) fun c => .bind (ihs fun t ht => ih t (by simp [ht])) fun d => ?_
    exact .pure (c ++ d)

/-- The code of a statement does not depend on the numbers of runs. -/
theorem code_renumber (hQ : Tracks g g' Q) (hT : Tracks g g' T) (h : Surroundings.Tracks g g' Q e e')
    (s : Stmt) : Emits.Alike T (code e (s.renote g)) (code e' (s.renote g')) := by
  induction s with
  | missing => exact .pure []
  | empty p => exact .pure []
  | block p scope ss ih => exact codeAll_renumber ih
  | expr p x => exact .lift (Expr.discard_renumber hQ h x)
  | decl p name ty x entry =>
    refine .need entry fun s => .bind (.lift (initCode_renumber hQ h ty x)) fun c => ?_
    rw [h.offset_eq s]
    exact .pure _
  | ifThen p c ts t es f iht ihf =>
    refine .bind .fresh fun skip => .bind (.lift (branchNot_renumber hQ h c skip)) fun test => ?_
    refine .bind iht fun first => ?_
    rw [isMissing_renote, isMissing_renote]
    cases f.isMissing with
    | true => exact .pure _
    | false => exact .bind .fresh fun done => .bind ihf fun second => .pure _
  | whileLoop p c bs b ih =>
    refine .bind .fresh fun top => .bind .fresh fun done => ?_
    exact .bind (.lift (branchNot_renumber hQ h c done)) fun test => .bind ih fun body => .pure _
  | doWhile p bs b c ih =>
    refine .bind .fresh fun top => .bind ih fun body => ?_
    refine .bind (.lift (Expr.code_renumber hQ h c)) fun test => ?_
    exact .bind (.lift ((c.typeOf_renumber).trans (c.typeOf_renumber).symm)) fun t => .pure _
  | forLoop p init c step bs b ih =>
    refine .bind (.lift (Expr.discardAll_renumber hQ h init)) fun first => .bind .fresh fun top => ?_
    refine .bind .fresh fun done => .bind (.lift (loopTest_renumber hQ h c done)) fun test => ?_
    exact .bind ih fun body => .bind (.lift (Expr.discardAll_renumber hQ h step)) fun last => .pure _
  | jump p name entry | label p name entry =>
    exact .need entry fun s => .bind (.labelOf hT s) fun n => .pure _
  | ret p x =>
    refine .bind (.lift (resultCode_renumber hQ h x)) fun c => ?_
    rw [h.exit_eq]
    exact .pure _
  | goto p name entry =>
    refine .need entry fun s => ?_
    rw [h.index_eq s, h.unwind]
    exact .pure _

end Stmt

theorem paramSlots_renumber (ps : List Param) : paramSlots (ps.map (·.renote g)) = paramSlots ps := by
  simp [paramSlots, Param.renote, Function.comp_def]

theorem Block.localsAll_renumber (b : Block) : Stmt.localsAll (b.renote g).stmts = Stmt.localsAll b.stmts :=
  Stmt.localsAll_renote fun s _ => s.locals_renote

theorem Surroundings.Tracks.enter (h : Surroundings.Tracks g g' Q e e') (result : Ty) (s : Symbol)
    (ps : List Param) (b : Block) : Surroundings.Tracks g g' Q
      (e.enter result (s.renumber g) (ps.map (·.renote g)) (b.renote g))
      (e'.enter result (s.renumber g') (ps.map (·.renote g')) (b.renote g')) where
  placed := h.placed
  constants := h.constants
  globals := h.globals
  frame := by
    simp only [Surroundings.enter, frameTypes, Declares.paramTypes_renote, Block.localsAll_renumber]
  result := rfl
  unwind := by
    have hPlaced := h.placed s.round
    simp only [Surroundings.enter, Symbol.renumber, hPlaced, Declares.paramTypes_renote,
      Block.localsAll_renumber]

section

variable {T : List ((Nat × Nat) × Label) → List ((Nat × Nat) × Label) → Prop}

/-- The code of a body does not depend on the numbers of runs. -/
theorem emitBody_renumber (hQ : Tracks g g' Q) (hT : Tracks g g' T) (h : Surroundings.Tracks g g' Q e e')
    (result : Ty) (entry : Option Symbol) (ps : List Param) (body : Option Block) : Emits.Alike T
      (emitBody e result (entry.map (·.renumber g)) (ps.map (·.renote g)) (body.map (·.renote g)))
      (emitBody e' result (entry.map (·.renumber g')) (ps.map (·.renote g'))
        (body.map (·.renote g'))) := by
  refine .need body fun b => .need entry fun s => ?_
  have hEnter := h.enter result s ps b
  refine .bind (Stmt.codeAll_renumber fun t _ => t.code_renumber hQ hT hEnter) fun code => ?_
  simp only [Block.localsAll_renumber, paramSlots_renumber, hEnter.exit_eq]
  exact .pure _

namespace Script

theorem emitFunction_renumber (hQ : Tracks g g' Q) (hT : Tracks g g' T) (h : Surroundings.Tracks g g' Q e e')
    (f : Function) : Emits.Alike T (emitFunction e (f.renote g)) (emitFunction e' (f.renote g')) := by
  refine .need f.entry fun s => ?_
  refine .bind (emitBody_renumber hQ hT h f.result f.entry f.params f.body) fun body => ?_
  rw [h.index_eq s]
  exact .pure _

theorem emitHandler_renumber (hQ : Tracks g g' Q) (hT : Tracks g g' T) (h : Surroundings.Tracks g g' Q e e')
    (k : Option Handler) : Emits.Alike T (emitHandler e (k.map (·.renote g)))
      (emitHandler e' (k.map (·.renote g'))) := by
  refine .need k fun k => ?_
  exact .bind (emitBody_renumber hQ hT h .void k.entry k.params k.body) fun body => .pure _

theorem emitState_renumber (hQ : Tracks g g' Q) (hT : Tracks g g' T) (h : Surroundings.Tracks g g' Q e e')
    (st : Option State) : Emits.Alike T (emitState e (st.map (·.renote g)))
      (emitState e' (st.map (·.renote g'))) := by
  refine .need st fun st => .need st.entry fun s => ?_
  refine .bind (.mapM fun k _ => emitHandler_renumber hQ hT h k) fun events => ?_
  rw [h.index_eq s]
  exact .pure _

theorem emitGlobals_renumber (hQ : Tracks g g' Q) (h : Surroundings.Tracks g g' Q e e')
    (vs : List GlobalVar) :
    emitGlobals e (vs.map (·.renote g)) = emitGlobals e' (vs.map (·.renote g')) := by
  induction vs with
  | nil => rfl
  | cons v vs ih =>
    obtain ⟨pos, name, ty, init, entry⟩ := v
    cases entry with
    | none => rfl
    | some s =>
      have hEntry : ∀ g, (GlobalVar.renote (.renumber g) ⟨pos, name, ty, init, some s⟩).entry =
        some (s.renumber g) := fun _ => rfl
      have hPlaced : e.placed.contains (s.renumber g).round = e'.placed.contains (s.renumber g').round :=
        h.placed s.round
      have hValue : e.constants.value? (s.renumber g) = e'.constants.value? (s.renumber g') := by
        rw [Constants.value?, hQ.constant?_eq h.constants, Constants.value?]
      simp only [map_cons, emitGlobals, hEntry, Fault.need, ok_bind, ih, hValue, hPlaced, h.globals]
      rfl

theorem globalOffsets_renumber (start : Nat) (vs : List GlobalVar) :
    globalOffsets start (vs.map (·.renote g)) = globalOffsets start vs := by
  induction vs generalizing start with
  | nil => rfl
  | cons v vs ih =>
    simp only [map_cons, globalOffsets, ih]
    rfl

/-- A script has the same program under two numberings of its runs. -/
theorem emit_renumber (hQ : Tracks g g' Q) (hT : Tracks g g' T) {placed placed' : List Nat}
    {cs cs' : Constants}
    (hPlaced : ∀ r, placed.contains (g r) = placed'.contains (g' r)) (hConstants : Q cs cs') (s : Script) :
    Emits.Alike T ((s.renote g).emit placed cs) ((s.renote g').emit placed' cs') := by
  have h : Surroundings.Tracks g g' Q ((s.renote g).surroundings placed cs)
      ((s.renote g').surroundings placed' cs') := by
    refine ⟨hPlaced, hConstants, ?_, rfl, rfl, rfl⟩
    simp only [surroundings, globalVars_renote, globalOffsets_renumber]
  unfold emit
  rw [globalVars_renote, globalVars_renote, functions_renote, functions_renote]
  refine .bind (.lift (emitGlobals_renumber hQ h s.globalVars)) fun globals => ?_
  refine .bind (.mapM fun f _ => emitFunction_renumber hQ hT h f) fun functions => ?_
  exact .bind (.mapM fun st _ => emitState_renumber hQ hT h st) fun states => .pure _

end Script

end

end Lsl
