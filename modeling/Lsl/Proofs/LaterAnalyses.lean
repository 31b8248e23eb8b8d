import Lsl.Proofs.PreparedScripts

/-! The later analyses of prepared scripts. The type analysis, the analysis of return paths, the allocation of
places and emission never come upon a missing part, a name without a symbol or a call with too many arguments.
-/
namespace Lsl

open List

variable {ss : List Stmt} {b : Option Block} {v : GlobalVar} {g : Global} {h : Option Handler}
  {cs cs' : Constants}

variable {es : List Expr} {x : Expr} {α : Type} {ds : List Diagnostic}

theorem Ident.infer_succeeds {v : Ident} (h : (Note.uses .local v.entry).fits) : ∃ r, v.infer = .ok r := by
  obtain ⟨s, hEntry, -⟩ := Note.fits_uses.mp h
  by_cases hMember : v.member = "" <;>
    exact ⟨_, bind_eq_ok.mpr ⟨s, need_eq_ok.mpr hEntry,
      by simp only [hMember, if_true, if_false]; rfl⟩⟩

namespace Expr

theorem inferAll_succeeds (h : ∀ e ∈ es, ∃ r, e.infer = .ok r) : ∃ r, inferAll es = .ok r := by
  induction es with
  | nil => exact ⟨_, rfl⟩
  | cons e es ih =>
    refine bind_succeeds (h e (by simp)) fun _ => ?_
    exact bind_succeeds (ih fun x hx => h x (by simp [hx])) fun _ => ⟨_, rfl⟩

theorem inferElements_succeeds (h : ∀ e ∈ es, ∃ r, e.infer = .ok r) : ∃ r, inferElements es = .ok
    r := by
  induction es with
  | nil => exact ⟨_, rfl⟩
  | cons e es ih =>
    refine bind_succeeds (h e (by simp)) fun _ => ?_
    exact bind_succeeds (ih fun x hx => h x (by simp [hx])) fun _ => ⟨_, rfl⟩

/-- A complete expression whose names are bound has its types. -/
theorem infer_succeeds (hComplete : x.complete) (hFits : ∀ n ∈ x.notes, n.fits) : ∃ r, x.infer = .ok
    r := by
  induction x with
  | missing => cases hComplete
  | int | float | string => exact ⟨_, rfl⟩
  | ident v =>
    exact bind_succeeds (Ident.infer_succeeds (v := v) (hFits _ (by simp [notes]))) fun _ => ⟨_, rfl⟩
  | vector p x y z t ihx ihy ihz =>
    simp only [complete, Bool.and_eq_true] at hComplete
    simp only [notes, forall_mem_append] at hFits
    refine bind_succeeds (ihx hComplete.1.1 hFits.1.1) fun _ => ?_
    refine bind_succeeds (ihy hComplete.1.2 hFits.1.2) fun _ => ?_
    exact bind_succeeds (ihz hComplete.2 hFits.2) fun _ => ⟨_, rfl⟩
  | rotation p x y z s t ihx ihy ihz ihs =>
    simp only [complete, Bool.and_eq_true] at hComplete
    simp only [notes, forall_mem_append] at hFits
    refine bind_succeeds (ihx hComplete.1.1.1 hFits.1.1.1) fun _ => ?_
    refine bind_succeeds (ihy hComplete.1.1.2 hFits.1.1.2) fun _ => ?_
    refine bind_succeeds (ihz hComplete.1.2 hFits.1.2) fun _ => ?_
    exact bind_succeeds (ihs hComplete.2 hFits.2) fun _ => ⟨_, rfl⟩
  | list p es t ih =>
    rw [complete, completeAll_eq, all_eq_true] at hComplete
    rw [notes, forall_mem_notesAll] at hFits
    have hes := inferElements_succeeds fun e he => ih e he (hComplete e he) (hFits e he)
    exact bind_succeeds hes fun _ => ⟨_, rfl⟩
  | call p name es c t ih =>
    rw [complete, completeAll_eq, all_eq_true] at hComplete
    rw [notes, forall_mem_append, forall_mem_notesAll, forall_mem_singleton] at hFits
    have hes := inferAll_succeeds fun e he => ih e he (hComplete e he) (hFits.1 e he)
    obtain ⟨s, hEntry, -⟩ := Note.fits_uses.mp hFits.2
    exact bind_succeeds hes fun _ => bind_succeeds ⟨s, need_eq_ok.mpr hEntry⟩ fun _ => ⟨_, rfl⟩
  | binary p op l r la ra t ihl ihr =>
    simp only [complete, Bool.and_eq_true] at hComplete
    simp only [notes, forall_mem_append] at hFits
    refine bind_succeeds (ihl hComplete.1 hFits.1) fun _ => ?_
    exact bind_succeeds (ihr hComplete.2 hFits.2) fun _ => ⟨_, rfl⟩
  | assign p op v x la ra t ih =>
    simp only [complete, Bool.and_eq_true] at hComplete
    simp only [notes, forall_mem_append] at hFits
    obtain ⟨v, rfl⟩ := Option.isSome_iff_exists.mp hComplete.1
    obtain ⟨rv, hv⟩ := Ident.infer_succeeds (v := v) (hFits.2 _ (by simp [targetNotes]))
    obtain ⟨rx, hx⟩ := ih hComplete.2 hFits.1
    exact ⟨_, bind_eq_ok.mpr ⟨v, rfl, bind_eq_ok.mpr ⟨rv, hv, bind_eq_ok.mpr ⟨rx, hx, rfl⟩⟩⟩⟩
  | incDec p d b v t =>
    obtain ⟨v, rfl⟩ := Option.isSome_iff_exists.mp hComplete
    obtain ⟨rv, hv⟩ := Ident.infer_succeeds (v := v) (hFits _ (by simp [notes, targetNotes]))
    exact ⟨_, bind_eq_ok.mpr ⟨v, rfl, bind_eq_ok.mpr ⟨rv, hv, rfl⟩⟩⟩
  | unary p op x t ih | cast p target x t ih | paren p x t ih | print p x t ih =>
    exact bind_succeeds (ih hComplete hFits) fun _ => ⟨_, rfl⟩

theorem inferCondition_succeeds (failed : Bool) (hComplete : x.complete) (hFits : ∀ n ∈ x.notes, n.fits) :
    ∃ r, x.inferCondition failed = .ok r :=
  bind_succeeds (infer_succeeds hComplete hFits) fun _ => ⟨_, rfl⟩

theorem inferOptional_succeeds (h : x.absentOrComplete) (hFits : ∀ n ∈ x.notes, n.fits) :
    ∃ r, x.inferOptional = .ok r := by
  cases x with
  | missing => exact ⟨_, rfl⟩
  | _ => exact infer_succeeds h hFits

theorem inferOptionalCondition_succeeds (failed : Bool) (h : x.absentOrComplete)
    (hFits : ∀ n ∈ x.notes, n.fits) : ∃ r, x.inferOptionalCondition failed = .ok r := by
  cases x with
  | missing => exact ⟨_, rfl⟩
  | _ => exact inferCondition_succeeds failed h hFits

/-- Complete expressions whose names are bound have their types. -/
theorem allInferred_succeeds (hComplete : completeAll es) (hFits : ∀ n ∈ notesAll es, n.fits) :
    ∃ r, inferAll es = .ok r := by
  rw [completeAll_eq, all_eq_true] at hComplete
  rw [forall_mem_notesAll] at hFits
  exact inferAll_succeeds fun e he => infer_succeeds (hComplete e he) (hFits e he)

end Expr

namespace Stmt

theorem checkAll_succeeds (result : Ty) (failed : Bool)
    (h : ∀ s ∈ ss, ∀ failed, ∃ r, s.check result failed = .ok r) :
    ∃ r, checkAll result failed ss = .ok r := by
  induction ss generalizing failed with
  | nil => exact ⟨_, rfl⟩
  | cons s ss ih =>
    rw [checkAll]
    cases failed with
    | true => exact ⟨_, rfl⟩
    | false =>
      refine bind_succeeds (h s (by simp) false) fun _ => ?_
      exact bind_succeeds (ih _ fun x hx => h x (by simp [hx])) fun _ => ⟨_, rfl⟩

/-- The check of a statement needs no part that a complete one lacks, and no symbol. A missing statement is
passed over. -/
theorem check_succeeds {result : Ty} {s : Stmt} (hComplete : (s.isMissing || s.complete) = true)
    (hFits : ∀ n ∈ s.notes, n.fits) (failed : Bool) : ∃ r, s.check result failed = .ok r := by
  induction s generalizing failed with
  | missing | jump | label | goto | empty => exact ⟨_, rfl⟩
  | block p scope ss ih =>
    simp only [isMissing, complete, completeAll_eq, Bool.false_or, all_eq_true] at hComplete
    have hss := checkAll_succeeds result failed fun s hs =>
      ih s hs (by rw [hComplete s hs, Bool.or_true]) fun n hn => hFits n (mem_notesAll.mpr ⟨s, hs, hn⟩)
    exact bind_succeeds hss fun _ => ⟨_, rfl⟩
  | expr p x => exact bind_succeeds (Expr.infer_succeeds hComplete hFits) fun _ => ⟨_, rfl⟩
  | decl p name ty init entry =>
    have hx := Expr.inferOptional_succeeds hComplete fun n hn => hFits n (by simp [notes, hn])
    exact bind_succeeds hx fun _ => ⟨_, rfl⟩
  | ret p v => exact bind_succeeds (Expr.inferOptional_succeeds hComplete hFits) fun _ => ⟨_, rfl⟩
  | ifThen p c ts t es e iht ihe =>
    simp only [isMissing, complete, Bool.false_or, Bool.and_eq_true] at hComplete
    simp only [notes, forall_mem_append] at hFits
    refine bind_succeeds (Expr.inferCondition_succeeds failed hComplete.1.1 hFits.1.1) fun _ => ?_
    refine bind_succeeds (iht (by rw [hComplete.1.2, Bool.or_true]) hFits.1.2 _) fun _ => ?_
    exact bind_succeeds (ihe hComplete.2 hFits.2 _) fun _ => ⟨_, rfl⟩
  | whileLoop p c bs b ih =>
    simp only [isMissing, complete, Bool.false_or, Bool.and_eq_true] at hComplete
    simp only [notes, forall_mem_append] at hFits
    refine bind_succeeds (Expr.inferCondition_succeeds failed hComplete.1 hFits.1) fun _ => ?_
    exact bind_succeeds (ih (by rw [hComplete.2, Bool.or_true]) hFits.2 _) fun _ => ⟨_, rfl⟩
  | doWhile p bs b c ih =>
    simp only [isMissing, complete, Bool.false_or, Bool.and_eq_true] at hComplete
    simp only [notes, forall_mem_append] at hFits
    refine bind_succeeds (ih (by rw [hComplete.1, Bool.or_true]) hFits.1 failed) fun _ => ?_
    exact bind_succeeds (Expr.inferCondition_succeeds _ hComplete.2 hFits.2) fun _ => ⟨_, rfl⟩
  | forLoop p init c step bs b ih =>
    simp only [isMissing, complete, Bool.false_or, Bool.and_eq_true] at hComplete
    simp only [notes, forall_mem_append] at hFits
    obtain ⟨⟨⟨hInit, hc⟩, hStep⟩, hb⟩ := hComplete
    obtain ⟨⟨⟨fInit, fc⟩, fStep⟩, fb⟩ := hFits
    refine bind_succeeds (Expr.allInferred_succeeds hInit fInit) fun _ => ?_
    refine bind_succeeds (Expr.inferOptionalCondition_succeeds _ hc fc) fun _ => ?_
    refine bind_succeeds (Expr.allInferred_succeeds hStep fStep) fun _ => ?_
    exact bind_succeeds (ih (by rw [hb, Bool.or_true]) fb _) fun _ => ⟨_, rfl⟩

end Stmt

namespace Script

theorem checkBody_succeeds (result : Ty) (hComplete : b.any Block.complete)
    (hFits : ∀ n ∈ bodyNotes b, n.fits) : ∃ r, checkBody result b = .ok r := by
  obtain ⟨b, rfl, hStmts⟩ := (Option.any_eq_true _ _).mp hComplete
  rw [Block.complete, Stmt.completeAll_eq, all_eq_true] at hStmts
  obtain ⟨r, hss⟩ := Stmt.checkAll_succeeds result false fun s hs =>
    Stmt.check_succeeds (by rw [hStmts s hs, Bool.or_true]) fun n hn =>
      hFits n (Stmt.mem_notesAll.mpr ⟨s, hs, hn⟩)
  exact ⟨_, bind_eq_ok.mpr ⟨b, rfl, bind_eq_ok.mpr ⟨r, hss, rfl⟩⟩⟩

theorem recordConstant_succeeds (cs : Constants) {sym : Symbol} {c : Constant} (h : v.entry = some sym) :
    ∃ r, recordConstant cs v c = .ok r :=
  ⟨_, bind_eq_ok.mpr ⟨sym, need_eq_ok.mpr h, rfl⟩⟩

theorem checkGlobalVar_succeeds (cs : Constants) (hComplete : v.init.absentOrComplete)
    (hFits : ∀ n ∈ (Global.var v).notes, n.fits) : ∃ r, checkGlobalVar cs v = .ok r := by
  simp only [Global.notes, forall_mem_append, forall_mem_singleton] at hFits
  obtain ⟨sym, hEntry, -⟩ := Note.fits_declares.mp hFits.2
  unfold checkGlobalVar
  split
  · exact bind_succeeds (recordConstant_succeeds cs hEntry) fun _ => ⟨_, rfl⟩
  · rename_i hPresent
    have hInit := (Expr.absentOrComplete_cases hComplete).resolve_left hPresent
    obtain ⟨⟨x, ds⟩, hx⟩ := Expr.infer_succeeds hInit hFits.1
    rw [hx, ok_bind]
    dsimp only
    split
    · exact ⟨_, rfl⟩
    · split
      · exact ⟨_, rfl⟩
      · split
        · exact ⟨_, rfl⟩
        · split
          · exact ⟨_, rfl⟩
          · exact bind_succeeds (recordConstant_succeeds cs hEntry) fun _ => ⟨_, rfl⟩

theorem checkGlobal_succeeds (cs : Constants) (hComplete : g.complete) (hFits : ∀ n ∈ g.notes, n.fits) :
    ∃ r, checkGlobal cs g = .ok r := by
  cases g with
  | missing => exact ⟨_, rfl⟩
  | var v => exact bind_succeeds (checkGlobalVar_succeeds cs hComplete hFits) fun _ => ⟨_, rfl⟩
  | function f =>
    have hBody := checkBody_succeeds f.result hComplete
      fun n hn => hFits n (mem_cons_of_mem _ (mem_append_right _ hn))
    exact bind_succeeds hBody fun _ => ⟨_, rfl⟩

theorem checkGlobals_succeeds (cs : Constants) {gs : List Global} (hComplete : ∀ g ∈ gs, g.complete)
    (hFits : ∀ g ∈ gs, ∀ n ∈ g.notes, n.fits) : ∃ r, checkGlobals cs gs = .ok r := by
  induction gs generalizing cs with
  | nil => exact ⟨_, rfl⟩
  | cons g gs ih =>
    refine bind_succeeds (checkGlobal_succeeds cs (hComplete g (by simp)) (hFits g (by simp))) fun _ => ?_
    have hgs := fun cs => ih cs (fun x hx => hComplete x (by simp [hx])) fun x hx => hFits x (by simp [hx])
    dsimp only
    split
    · exact ⟨_, rfl⟩
    · exact bind_succeeds (hgs _) fun _ => ⟨_, rfl⟩

theorem checkUntil_succeeds (step : α → Except Fault (Noted α)) {as : List α}
    (h : ∀ a ∈ as, ∃ r, step a = .ok r) : ∃ r, checkUntil step as = .ok r := by
  induction as with
  | nil => exact ⟨_, rfl⟩
  | cons a as ih =>
    refine bind_succeeds (h a (by simp)) fun _ => ?_
    dsimp only
    split
    · exact ⟨_, rfl⟩
    · exact bind_succeeds (ih fun x hx => h x (by simp [hx])) fun _ => ⟨_, rfl⟩

theorem checkHandler_succeeds (hComplete : h.any Handler.complete)
    (hFits : ∀ n ∈ h.elim [] Handler.notes, n.fits) : ∃ r, checkHandler h = .ok r := by
  obtain ⟨h, rfl, hBody⟩ := (Option.any_eq_true _ _).mp hComplete
  obtain ⟨r, hBody⟩ := checkBody_succeeds .void hBody
    fun n hn => hFits n (mem_cons_of_mem _ (mem_append_right _ hn))
  exact ⟨_, bind_eq_ok.mpr ⟨h, rfl, bind_eq_ok.mpr ⟨r, hBody, rfl⟩⟩⟩

theorem checkState_succeeds {s : Option State} (hComplete : s.any State.complete)
    (hFits : ∀ n ∈ s.elim [] State.notes, n.fits) : ∃ r, checkState s = .ok r := by
  obtain ⟨s, rfl, hEvents⟩ := (Option.any_eq_true _ _).mp hComplete
  obtain ⟨r, hEvents⟩ := checkUntil_succeeds checkHandler fun e he =>
    checkHandler_succeeds (List.all_eq_true.mp hEvents e he) fun n hn =>
      hFits n (mem_cons_of_mem _ (List.mem_flatMap.mpr ⟨e, he, hn⟩))
  exact ⟨_, bind_eq_ok.mpr ⟨s, rfl, bind_eq_ok.mpr ⟨r, hEvents, rfl⟩⟩⟩

namespace Prepared

variable {s : Script}

theorem global (h : s.Prepared) (hg : g ∈ s.globals) :
    g.complete ∧ ∀ n ∈ g.notes, n.fits := by
  have hComplete := h.complete
  simp only [Script.complete, Bool.and_eq_true, all_eq_true] at hComplete
  exact ⟨hComplete.1 g hg, fun n hn =>
    h.fits n (mem_append_left _ (List.mem_flatMap.mpr ⟨g, hg, hn⟩))⟩

theorem state (h : s.Prepared) {st : Option State} (hst : st ∈ s.states) :
    st.any State.complete ∧ ∀ n ∈ st.elim [] State.notes, n.fits := by
  have hComplete := h.complete
  simp only [Script.complete, Bool.and_eq_true, all_eq_true] at hComplete
  exact ⟨hComplete.2 st hst, fun n hn =>
    h.fits n (mem_append_right _ (List.mem_flatMap.mpr ⟨st, hst, hn⟩))⟩

/-- The type analysis of a prepared script lacks nothing. -/
theorem check_succeeds (h : s.Prepared) (cs : Constants) : ∃ r, s.check cs = .ok r := by
  have hGlobals := checkGlobals_succeeds cs (fun g hg => (h.global hg).1) fun g hg => (h.global hg).2
  have hStates :=
    checkUntil_succeeds checkState fun st hst => checkState_succeeds (h.state hst).1 (h.state hst).2
  refine bind_succeeds hGlobals fun _ => ?_
  dsimp only
  split
  · exact ⟨_, rfl⟩
  · exact bind_succeeds hStates fun _ => ⟨_, rfl⟩

end Prepared
end Script

namespace Stmt

/-- Where every note fits, every local has its symbol. -/
theorem localsBoundAll_of_fits (h : ∀ s ∈ ss, s.localsBound = true) :
    localsBoundAll ss = true := by
  induction ss with
  | nil => rfl
  | cons s ss ih =>
    rw [localsBoundAll, h s (by simp), ih fun x hx => h x (by simp [hx])]
    rfl

theorem localsBound_of_fits {s : Stmt} (hFits : ∀ n ∈ s.notes, n.fits) : s.localsBound = true := by
  induction s with
  | missing | expr | jump | label | ret | goto | empty => rfl
  | block p scope ss ih =>
    exact localsBoundAll_of_fits fun s hs => ih s hs fun n hn => hFits n (mem_notesAll.mpr ⟨s, hs, hn⟩)
  | decl p name ty init entry => exact Note.fits.symbol (hFits (.declares .local ty entry) (by simp [notes]))
  | ifThen p c ts t es e iht ihe =>
    simp only [notes, forall_mem_append] at hFits
    rw [localsBound, iht hFits.1.2, ihe hFits.2]
    rfl
  | whileLoop p c bs b ih | forLoop p init c step bs b ih =>
    simp only [notes, forall_mem_append] at hFits
    exact ih hFits.2
  | doWhile p bs b c ih =>
    simp only [notes, forall_mem_append] at hFits
    exact ih hFits.1

end Stmt

theorem bodyNotes_forget (b : Option Block) : bodyNotes (b.map (·.forget .resolved)) = bodyNotes b := by
  cases b with
  | none => rfl
  | some b => exact Stmt.notesAll_forget b.stmts

theorem paramNotes_forget (ps : List Param) : paramNotes (ps.map (·.forget .resolved)) = paramNotes ps :=
  congrArg paramNotes (map_id ps)

theorem Global.notes_forget (g : Global) : (g.forget .resolved).notes = g.notes := by
  cases g with
  | missing => rfl
  | var v => simp only [Global.forget, GlobalVar.forget, Global.notes, Expr.notes_forget, Stage.bound]
  | function f =>
    simp only [Global.forget, Function.forget, Global.notes, paramNotes_forget, bodyNotes_forget, Stage.bound]

theorem Handler.notes_forget (h : Option Handler) :
    (h.map (·.forget .resolved)).elim [] Handler.notes = h.elim [] Handler.notes := by
  cases h with
  | none => rfl
  | some h =>
    simp only [Option.map_some, Option.elim_some, Handler.forget, Handler.notes, paramNotes_forget,
      bodyNotes_forget, Stage.bound]

theorem State.notes_forget (s : Option State) :
    (s.map (·.forget .resolved)).elim [] State.notes = s.elim [] State.notes := by
  cases s with
  | none => rfl
  | some s =>
    simp only [Option.map_some, Option.elim_some, State.forget, State.notes, flatMap_map,
      Handler.notes_forget, Stage.bound]

namespace Script

theorem notes_forget (s : Script) : (s.forget .resolved).notes = s.notes := by
  simp only [notes, forget, flatMap_map, Global.notes_forget, State.notes_forget]

theorem untilError_succeeds (step : α → Except Fault (List Diagnostic)) {as : List α}
    (h : ∀ a ∈ as, ∃ ds, step a = .ok ds) : ∃ ds, untilError step as = .ok ds := by
  induction as with
  | nil => exact ⟨_, rfl⟩
  | cons a as ih =>
    refine bind_succeeds (h a (by simp)) fun _ => ?_
    split
    · exact ⟨_, rfl⟩
    · exact bind_succeeds (ih fun x hx => h x (by simp [hx])) fun _ => ⟨_, rfl⟩

theorem functionPaths_succeeds {f : Function} (h : f.body.any Block.complete) :
    ∃ ds, functionPaths f = .ok ds := by
  obtain ⟨b, hBody, -⟩ := (Option.any_eq_true _ _).mp h
  have hRun : ∀ owner, ∃ r, Paths.run owner f.body = .ok r := fun owner => by
    rw [hBody]
    exact ⟨_, rfl⟩
  obtain ⟨r, hVoid⟩ := hRun .voidFunction
  obtain ⟨⟨ends, ds⟩, hValue⟩ := hRun .valueFunction
  unfold functionPaths
  split
  · exact ⟨_, bind_eq_ok.mpr ⟨r, hVoid, rfl⟩⟩
  · simp only [hValue, ok_bind]
    split <;> exact ⟨_, rfl⟩

theorem handlerPaths_succeeds (hComplete : h.any Handler.complete) :
    ∃ ds, handlerPaths h = .ok ds := by
  obtain ⟨h, rfl, hBody⟩ := (Option.any_eq_true _ _).mp hComplete
  obtain ⟨b, hBody, -⟩ := (Option.any_eq_true _ _).mp hBody
  unfold handlerPaths
  rw [Fault.need, ok_bind, hBody]
  exact ⟨_, rfl⟩

theorem statePaths_succeeds {s : Option State} (h : s.any State.complete) : ∃ ds, statePaths s = .ok ds :=
    by
  obtain ⟨s, rfl, hEvents⟩ := (Option.any_eq_true _ _).mp h
  obtain ⟨ds, hPaths⟩ := untilError_succeeds handlerPaths fun e he =>
    handlerPaths_succeeds (List.all_eq_true.mp hEvents e he)
  exact ⟨ds, bind_eq_ok.mpr ⟨s, rfl, hPaths⟩⟩

/-- The analysis of return paths needs no part that a complete script lacks. -/
theorem paths_succeeds {s : Script} (h : s.complete) : ∃ ds, s.paths = .ok ds := by
  simp only [complete, Bool.and_eq_true, all_eq_true] at h
  refine bind_succeeds (untilError_succeeds functionPaths fun f hf =>
    functionPaths_succeeds (h.1 _ (mem_functions.mp hf))) fun _ => ?_
  split
  · exact ⟨_, rfl⟩
  · exact bind_succeeds (untilError_succeeds _ fun st hst => statePaths_succeeds (h.2 st hst)) fun _ =>
      ⟨_, rfl⟩

theorem forM_succeeds {f : α → Except Fault Unit} {as : List α} (h : ∀ a ∈ as, f a = .ok ()) :
    as.forM f = .ok () := by
  induction as with
  | nil => rfl
  | cons a as ih => exact bind_eq_ok.mpr ⟨(), h a (by simp), ih fun x hx => h x (by simp [hx])⟩

theorem requireFrame_succeeds {entry : Option Symbol} {ps : List Param} {kind : SymbolKind} {ty : Ty}
    (hComplete : b.any Block.complete)
    (hFits : ∀ n ∈ Note.declares kind ty entry :: (paramNotes ps ++ bodyNotes b), n.fits) :
    requireFrame entry ps b = .ok () := by
  obtain ⟨b, rfl, -⟩ := (Option.any_eq_true _ _).mp hComplete
  rw [forall_mem_cons, forall_mem_append] at hFits
  obtain ⟨hEntry, hParams, hBody⟩ := hFits
  have hEntry : entry.isSome = true := Note.fits.symbol hEntry
  have hParams : ps.all (·.entry.isSome) = true :=
    List.all_eq_true.mpr fun p hp => Note.fits.symbol (hParams _ (mem_map_of_mem hp))
  have hLocals : Stmt.localsBoundAll b.stmts = true := Stmt.localsBoundAll_of_fits fun s hs =>
    Stmt.localsBound_of_fits fun n hn => hBody n (Stmt.mem_notesAll.mpr ⟨s, hs, hn⟩)
  refine bind_eq_ok.mpr ⟨b, rfl, ?_⟩
  rw [hEntry, hParams, hLocals]
  rfl

namespace Prepared

variable {s s' : Script}

/-- Everything that is given a place in a prepared script has its symbol. -/
theorem requireEntries_succeeds (h : s.Prepared) : s.requireEntries = .ok () := by
  refine bind_eq_ok.mpr ⟨(), forM_succeeds fun g hg => ?_, forM_succeeds fun st hst => ?_⟩
  · obtain ⟨hComplete, hFits⟩ := h.global hg
    cases g with
    | missing => rfl
    | var v =>
      obtain ⟨sym, hEntry, -⟩ := Note.fits_declares.mp (hFits (.declares .global v.ty v.entry)
        (by simp [Global.notes]))
      exact bind_eq_ok.mpr ⟨sym, need_eq_ok.mpr hEntry, rfl⟩
    | function f => exact requireFrame_succeeds hComplete hFits
  · obtain ⟨hComplete, hFits⟩ := h.state hst
    obtain ⟨st, rfl, hEvents⟩ := (Option.any_eq_true _ _).mp hComplete
    obtain ⟨sym, hEntry, -⟩ := Note.fits_declares.mp (hFits _ (mem_cons_self ..))
    refine bind_eq_ok.mpr ⟨st, rfl, bind_eq_ok.mpr ⟨sym, need_eq_ok.mpr hEntry, ?_⟩⟩
    refine forM_succeeds fun e he => ?_
    obtain ⟨e, rfl, hBody⟩ := (Option.any_eq_true _ _).mp (List.all_eq_true.mp hEvents e he)
    have hHandler : ∀ n ∈ e.notes, n.fits := fun n hn =>
      hFits n (mem_cons_of_mem _ (List.mem_flatMap.mpr ⟨some e, he, hn⟩))
    exact bind_eq_ok.mpr ⟨e, rfl, requireFrame_succeeds hBody hHandler⟩

/-- The type analysis leaves a prepared script prepared, also where it finds something. -/
theorem check (h : s.Prepared) (hCheck : s.check cs = .ok ((s', cs'), ds)) :
    s'.Prepared := by
  have hKept : s'.forget .resolved = s.forget .resolved := check_keeps hCheck
  refine ⟨?_, ?_⟩
  · rw [← s'.complete_forget .resolved, hKept, complete_forget]
    exact h.complete
  · rw [← s'.notes_forget, hKept, notes_forget]
    exact h.fits

/-- The routines of a prepared script have their symbols and those of all names in them. -/
theorem routine (h : s.Prepared) {r : Routine} (hr : r ∈ s.routines) :
    (∃ sym, r.entry = some sym) ∧ ∀ n ∈ bodyNotes r.body, n.fits := by
  rcases mem_routines.mp hr with ⟨f, hf, rfl⟩ | ⟨st, hst, g, hg, rfl⟩
  · obtain ⟨-, hFits⟩ := h.global (mem_functions.mp hf)
    obtain ⟨sym, hEntry, -⟩ := Note.fits_declares.mp (hFits _ (mem_cons_self ..))
    exact ⟨⟨sym, hEntry⟩, fun n hn => hFits n (mem_cons_of_mem _ (mem_append_right _ hn))⟩
  · obtain ⟨-, hFits⟩ := h.state hst
    have hHandler : ∀ n ∈ g.notes, n.fits := fun n hn =>
      hFits n (mem_cons_of_mem _ (List.mem_flatMap.mpr ⟨some g, hg, hn⟩))
    obtain ⟨sym, hEntry, -⟩ := Note.fits_declares.mp (hHandler _ (mem_cons_self ..))
    exact ⟨⟨sym, hEntry⟩, fun n hn => hHandler n (mem_cons_of_mem _ (mem_append_right _ hn))⟩

/-- A prepared script in which the type analysis finds no error has a program. -/
theorem emit_succeeds (h : s.Prepared) (hCheck : s.check cs = .ok ((s', cs'), ds))
    (hFailed : Diagnostic.failed ds = false) (placed : List Nat) (constants : Constants) (l : Labels) :
    ∃ r, s'.emit placed constants l = .ok r := by
  obtain ⟨hErrors, hChecked⟩ := check_checked hCheck
  obtain rfl := Session.eq_nil_of_not_failed hErrors hFailed
  have hPrepared := h.check hCheck
  refine Script.emit_succeeds hPrepared.requireEntries_succeeds (fun r hr => ?_) placed constants l
  obtain ⟨r₀, -, hRoutine⟩ := exists_of_mem_right (hChecked rfl) hr
  obtain ⟨⟨sym, hEntry⟩, hFits⟩ := hPrepared.routine hr
  have hBody := hRoutine.body
  simp only [checkBody, bind_eq_ok, need_eq_ok, pure_eq_ok, Prod.mk.injEq] at hBody
  obtain ⟨b, -, ⟨ss, ds⟩, hStmts, hBody, rfl⟩ := hBody
  have hTyped := (Stmt.checkAll_wellTyped hStmts).found.holds rfl rfl
  refine Routine.emittable_of_ready hEntry hBody.symm fun t ht => ?_
  rw [hRoutine.result]
  rw [← hBody] at hFits
  exact ⟨fun x hx => hTyped.exprs x (Stmt.mem_exprsAll.mpr ⟨t, ht, hx⟩),
    fun u hu => hTyped.stmts u (Stmt.mem_partsAll.mpr ⟨t, ht, hu⟩),
    fun n hn => Note.fits.symbol (hFits n (Stmt.mem_notesAll.mpr ⟨t, ht, hn⟩))⟩

end Prepared

/-- The analyses after the resolution of names, and emission, come to an end without a fault. -/
structure LacksNothing (s : Script) : Prop where
  paths : ∃ ds, s.paths = .ok ds
  placed : s.requireEntries = .ok ()
  checked : ∀ cs, ∃ s' cs' ds, s.check cs = .ok ((s', cs'), ds) ∧ (∃ ds, s'.paths = .ok ds) ∧
    s'.requireEntries = .ok () ∧
    (Diagnostic.failed ds = false → ∀ placed constants l, ∃ r, s'.emit placed constants l = .ok r)

theorem Prepared.lacksNothing {s : Script} (h : s.Prepared) : s.LacksNothing := by
  refine ⟨paths_succeeds h.complete, h.requireEntries_succeeds, fun cs => ?_⟩
  obtain ⟨⟨⟨s', cs'⟩, ds⟩, hCheck⟩ := h.check_succeeds cs
  have hPrepared := h.check hCheck
  exact ⟨s', cs', ds, hCheck, paths_succeeds hPrepared.complete, hPrepared.requireEntries_succeeds,
    fun hFailed => h.emit_succeeds hCheck hFailed⟩

/-- The tree that bytes hold is complete. -/
theorem decode_complete {bs : Bytes} {s : Script} (h : Script.decode bs = .ok s) : s.complete := by
  unfold Script.decode at h
  split at h
  · cases h
  · rename_i n hn
    cases hRead : n.toScript with
    | error e => simp [hRead, Except.mapError] at h
    | ok s' =>
      obtain rfl : s' = s := by simpa [hRead, Except.mapError] using h
      exact (Node.toScript_plain hRead).1

/-- The only thing a complete tree may lack is a first state of the right name. -/
theorem complete_malformed {s : Script} (hComplete : s.complete) {visible : List LibraryFunction}
    {round : Nat}
    {d : Diagnostic} (hd : d ∈ (s.declare visible round).2) (hKind : d.kind = .malformedTree) :
    d = malformed s.pos "first state must be default" := by
  obtain ⟨before, after, hTells, hFound, -⟩ := s.declare_finds visible round
  have hOther : d ∉ before ++ after := fun hd => hTells.kind hComplete d hd hKind
  rw [mem_append, not_or] at hOther
  rw [hFound] at hd
  simp only [mem_append] at hd
  rcases hd with (hd | hd) | hd
  · exact absurd hd hOther.1
  · split at hd
    · cases hd
    · exact List.mem_singleton.mp hd
  · exact absurd hd hOther.2

end Script

namespace Session

/-- The analyses listed, and emission after them, come to an end without a fault. -/
def Completes (as : List Analysis) (s : Session) : Prop :=
  ∃ s', as.foldlM run s = .ok s' ∧ ∃ r, s'.emit = .ok r

namespace Completes

variable {as : List Analysis} {a : Analysis} {s t : Session}

/-- Once an error is found, nothing more is done. -/
theorem stopped (h : s.failed = true) : Completes as s := by
  have hRun : as.foldlM run s = .ok s := by
    induction as with
    | nil => rfl
    | cons a as ih => exact bind_eq_ok.mpr ⟨s, by rw [run, h, if_pos rfl], ih⟩
  refine ⟨s, hRun, (s, none), ?_⟩
  rw [emit, h, if_pos rfl]

theorem cons (hPerform : s.failed = false → s.perform a = .ok t)
    (ht : s.failed = false → t.failed = false → Completes as t) : Completes (a :: as) s := by
  cases hFailed : s.failed with
  | true => exact stopped hFailed
  | false =>
    have hRun : s.run a = .ok t := by
      rw [run, hFailed]
      exact hPerform hFailed
    have hRest : Completes as t := by
      cases hFailed' : t.failed with
      | true => exact stopped hFailed'
      | false => exact ht hFailed hFailed'
    obtain ⟨s', hRest, hEmit⟩ := hRest
    exact ⟨s', bind_eq_ok.mpr ⟨t, hRun, hRest⟩, hEmit⟩

end Completes

theorem failed_report {s : Session} (h : (s.report ds).failed = false) : Diagnostic.failed ds = false := by
  rw [failed, report, Diagnostic.failed, any_append, Bool.or_eq_false_iff] at h
  exact h.2

theorem later_completes {s : Session} (h : s.script.LacksNothing) : Completes [.check, .paths, .place] s := by
  obtain ⟨t, cs, ds, hCheck, ⟨found, hPaths⟩, hPlaced, hEmit⟩ := h.checked s.constants
  refine .cons (fun _ => bind_eq_ok.mpr ⟨_, hCheck, rfl⟩) fun _ hChecked => ?_
  refine .cons (fun _ => bind_eq_ok.mpr ⟨found, hPaths, rfl⟩) fun _ _ => ?_
  refine .cons (fun _ => bind_eq_ok.mpr ⟨(), hPlaced, rfl⟩) fun _ hFailed => ?_
  obtain ⟨⟨p, l⟩, hEmit⟩ := hEmit (failed_report hChecked) (s.round :: s.placed) cs s.labels
  refine ⟨_, rfl, ?_⟩
  rw [emit, hFailed]
  exact ⟨_, bind_eq_ok.mpr ⟨(p, l), hEmit, rfl⟩⟩

/-- The analyses of any tree, and emission after them, come to an end without a fault. -/
theorem analyze_completes (s : Session) : Completes Analysis.all s := by
  cases hDeclare : s.script.declare (s.library.visible s.privileged) (s.round + 1) with
  | mk s₁ ds₁ =>
  refine .cons (t := { s with script := s₁, round := s.round + 1 }.report ds₁)
    (fun _ => by rw [perform, hDeclare]) fun _ hFailed₁ => ?_
  have hNamed := Script.declare_named hDeclare (failed_report hFailed₁)
  obtain ⟨⟨s₂, ds₂⟩, hResolve⟩ := Script.resolve_succeeds hNamed.complete
  refine .cons (fun _ => bind_eq_ok.mpr ⟨_, hResolve, rfl⟩) fun _ hFailed₂ => ?_
  exact later_completes (hNamed.prepared hResolve (failed_report hFailed₂)).lacksNothing

end Session

/-- The analyses of names establish what the later ones assume. Where the declaration of names finds no error
in a tree, whatever it holds, nothing is missing and every name but those of calls, jumps and state changes
has its symbol; where their resolution finds none either, these have theirs, of the kind called for, and the
later analyses and emission lack nothing. Hence no session ends in a fault. In a tree that was read from
bytes, nothing is found missing but the default state. -/
theorem Script.scopes_prepare :
    (∀ (s s₁ : Script) (visible : List LibraryFunction) (round : Nat) (ds₁ : List Diagnostic),
      s.declare visible round = (s₁, ds₁) → Diagnostic.failed ds₁ = false →
        s.complete ∧ s₁.Named ∧ ∃ s₂ ds₂, s₁.resolve = .ok (s₂, ds₂) ∧
          (Diagnostic.failed ds₂ = false → s₂.Prepared ∧ s₂.LacksNothing)) ∧
    (∀ s : Session, ∃ s', s.analyze = .ok s' ∧ ∃ r, s'.emit = .ok r) ∧
    ∀ (bytes : Bytes) (s : Script), Script.decode bytes = .ok s →
      ∀ (visible : List LibraryFunction) (round : Nat), ∀ d ∈ (s.declare visible round).2,
        d.kind = .malformedTree → d = malformed s.pos "first state must be default" := by
  refine ⟨?_, Session.analyze_completes, ?_⟩
  · intro s s₁ visible round ds₁ hDeclare hFailed
    have hNamed := declare_named hDeclare hFailed
    obtain ⟨⟨s₂, ds₂⟩, hResolve⟩ := resolve_succeeds hNamed.complete
    refine ⟨?_, hNamed, s₂, ds₂, hResolve, ?_⟩
    · have hRaw := declare_raw visible round s
      rw [hDeclare] at hRaw
      rw [← s.complete_forget .raw, ← hRaw, complete_forget]
      exact hNamed.complete
    · intro hFailed₂
      have hPrepared := hNamed.prepared hResolve hFailed₂
      exact ⟨hPrepared, hPrepared.lacksNothing⟩
  · intro bytes s hRead visible round d hd hKind
    exact complete_malformed (decode_complete hRead) hd hKind

/-- The sample script is prepared by the analyses of names, and a stored script without states lacks the
default state only. -/
theorem Script.scopes_prepare_sample :
    (∃ s₁ s₂, Script.sample.declare [] 1 = (s₁, []) ∧ s₁.resolve = .ok (s₂, []) ∧
      s₂.LacksNothing) ∧
    ∃ s, Script.decode [0xa1, 0x01, 0x66, 0x73, 0x63, 0x72, 0x69, 0x70, 0x74] = .ok s ∧
      ∀ d ∈ (s.declare [] 1).2, d.kind = .malformedTree →
        d = malformed s.pos "first state must be default" := by
  obtain ⟨s, hAnalyze, hFailed⟩ := Session.sample_analyzes
  obtain ⟨s₁, s₂, -, -, -, hDeclare, hResolve, -⟩ := Session.analyze_steps hAnalyze hFailed
  refine ⟨⟨s₁, s₂, hDeclare, hResolve, ?_⟩, ?_⟩
  · obtain ⟨-, -, s₂', ds₂, hResolve', hLater⟩ := scopes_prepare.1 .sample s₁ [] 1 [] hDeclare rfl
    obtain ⟨rfl, rfl⟩ : s₂ = s₂' ∧ [] = ds₂ := by simpa [hResolve] using hResolve'
    exact (hLater rfl).2
  · have hRun : (Script.decode [0xa1, 0x01, 0x66, 0x73, 0x63, 0x72, 0x69, 0x70, 0x74]).isOk = true := by
      decide +kernel
    cases hRead : Script.decode [0xa1, 0x01, 0x66, 0x73, 0x63, 0x72, 0x69, 0x70, 0x74] with
    | error e => simp [hRead, Except.isOk, Except.toBool] at hRun
    | ok s => exact ⟨s, rfl, scopes_prepare.2.2 _ _ hRead [] 1⟩

end Lsl
