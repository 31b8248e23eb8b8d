import Lsl.Proofs.RenewedNotes

/-! What the analyses leave alone. Whatever an analysis finds, and also where it stops at an error, it changes
the notes of a tree and nothing that its reader supplied; the resolution of later names changes its own notes
only, and the type analysis types only. -/
namespace Lsl

open List

variable {b b' : Option Block} {g g' : Global} {h h' : Option Handler} {s s' : Option State} {a : Analysis}
  {α : Type}

variable {ds : List Diagnostic} {around : List Scope} {cs cs' : Constants}

namespace Declares

variable {β : Type} {m : Declares α} {f : α → Declares β} {P : α → Prop} {Q : β → Prop}

theorem frame_raw (ps : List Param) (b : Block) : Yields (frame ps b)
    fun r => r.1.map (·.forget .raw) = ps.map (·.forget .raw) ∧ r.2.forget .raw = b.forget .raw := by
  refine .bind .trivial fun _ _ => .bind .trivial fun _ _ => .bind (params_raw ps) fun ps' hps => ?_
  refine .bind (stmts_raw fun s _ => stmt_raw s) fun ss hss => .bind .trivial fun _ _ => .pure ⟨hps, ?_⟩
  simp only [Block.forget, hss, Stage.bound]

theorem globalVar_raw (v : GlobalVar) :
    Yields (globalVar v) fun v' => v'.forget .raw = v.forget .raw := by
  refine .bind (optional_raw v.init) fun x hx => .bind .trivial fun _ _ => .bind .trivial fun _ _ => ?_
  refine .bind .trivial fun _ _ => .pure ?_
  simp only [GlobalVar.forget, hx, Stage.bound]

theorem function_raw (f : Function) : Yields (function f) fun f' => f'.forget .raw = f.forget .raw := by
  refine .bind .trivial fun _ _ => .bind .trivial fun _ _ => .bind .trivial fun _ _ => ?_
  split
  · exact .bind .trivial fun _ _ => .pure rfl
  · rename_i b hBody
    refine .bind (frame_raw f.params b) fun r hr => .pure ?_
    simp only [Function.forget, hr.1, hBody, Option.map_some, hr.2, Stage.bound]

theorem global_raw (script : Pos) (g : Global) :
    Yields (global script g) fun g' => g'.forget .raw = g.forget .raw := by
  cases g with
  | missing => exact .bind .trivial fun _ _ => .pure rfl
  | var v => exact .bind (globalVar_raw v) fun _ hv => .pure (congrArg Global.var hv)
  | function f => exact .bind (function_raw f) fun _ hf => .pure (congrArg Global.function hf)

theorem knownHandler_raw (kind : EventKind) (h : Handler) :
    Yields (knownHandler kind h) fun h' => h'.forget .raw = h.forget .raw := by
  refine .bind .trivial fun _ _ => ?_
  split
  · exact .bind .trivial fun _ _ => .pure rfl
  · rename_i b hBody
    refine .bind (frame_raw h.params b) fun r hr => .pure ?_
    simp only [Handler.forget, hr.1, hBody, Option.map_some, hr.2, Stage.bound]

theorem handler_raw (h : Handler) : Yields (handler h) fun h' => h'.forget .raw = h.forget .raw := by
  unfold handler
  split
  · exact .bind .trivial fun _ _ => .pure rfl
  · split
    · exact .bind .trivial fun _ _ => knownHandler_raw _ h
    · exact knownHandler_raw _ h

theorem state_raw (index : Nat) (s : State) :
    Yields (state index s) fun s' => s'.forget .raw = s.forget .raw := by
  refine .bind .trivial fun _ _ => .bind .trivial fun _ _ => ?_
  refine .bind (P := fun es => es.map (Option.map (·.forget .raw)) = s.events.map
    (Option.map (·.forget .raw)))
    (.mapM fun e _ => ?_) fun es hes => .bind .trivial fun _ _ => .pure ?_
  · cases e with
    | none => exact .bind .trivial fun _ _ => .pure rfl
    | some h => exact .bind (handler_raw h) fun _ hh => .pure (congrArg some hh)
  · simp only [State.forget, hes, Stage.bound]

theorem states_raw (script : Pos) (index : Nat) (ss : List (Option State)) :
    Yields (states script index ss)
      fun ss' => ss'.map (Option.map (·.forget .raw)) = ss.map (Option.map (·.forget .raw)) := by
  induction ss generalizing index with
  | nil => exact .pure rfl
  | cons s ss ih =>
    cases s with
    | none =>
      refine .bind .trivial fun _ _ => .bind (ih _) fun ss' hss => .pure ?_
      rw [map_cons, map_cons, hss]
    | some s =>
      refine .bind (state_raw index s) fun s' hs => .bind (ih _) fun ss' hss => .pure ?_
      rw [map_cons, map_cons, Option.map_some, Option.map_some, hs, hss]

theorem script_raw (s : Script) : Yields (script s) fun s' => s'.forget .raw = s.forget .raw := by
  refine .bind (.mapM fun g _ => global_raw s.pos g) fun gs hgs => .bind .trivial fun _ _ => ?_
  refine .bind (states_raw s.pos 0 s.states) fun sts hsts => .bind .trivial fun _ _ => .pure ?_
  simp only [Script.forget, hgs, hsts, Stage.bound]

end Declares

/-- The declaration of names changes notes only. -/
theorem Script.declare_raw (visible : List LibraryFunction) (round : Nat) (s : Script) :
    (s.declare visible round).1.forget .raw = s.forget .raw :=
  Declares.script_raw s _

/-- What a step over parts leaves alone in each part it leaves alone in all. -/
theorem notedAll_keeps {step : α → Except Fault (Noted α)} {raw : α → α}
    (hStep : ∀ {a a' ds}, step a = .ok (a', ds) → raw a' = raw a) {as as' : List α}
    (h : notedAll step as = .ok (as', ds)) : as'.map raw = as.map raw := by
  induction as generalizing as' ds with
  | nil => cases h; rfl
  | cons a as ih =>
    simp only [notedAll, bind_eq_ok, pure_eq_ok] at h
    obtain ⟨⟨a', d⟩, ha, ⟨as', d'⟩, has, h⟩ := h
    cases h
    rw [map_cons, map_cons, hStep ha, ih has]

namespace Script

variable {k : Stage} (hk : k ≠ .resolved)

include hk

theorem resolveBody_keeps (h : resolveBody around b = .ok (b', ds)) :
    b'.map (·.forget k) = b.map (·.forget k) := by
  simp only [resolveBody, bind_eq_ok, need_eq_ok, pure_eq_ok] at h
  obtain ⟨b, rfl, h⟩ := h
  cases h
  simp only [Option.map_some, Block.forget, Stmt.linkAll_keeps fun s _ => s.link_keeps hk]

theorem resolveGlobal_keeps (h : resolveGlobal around g = .ok (g', ds)) :
    g'.forget k = g.forget k := by
  cases g with
  | missing => cases h; rfl
  | var v =>
    cases h
    simp only [Global.forget, GlobalVar.forget, Expr.link_keeps hk]
  | function f =>
    simp only [resolveGlobal, bind_eq_ok, pure_eq_ok] at h
    obtain ⟨⟨b, d⟩, hb, h⟩ := h
    cases h
    simp only [Global.forget, Function.forget, resolveBody_keeps hk hb]

theorem resolveHandler_keeps (hResolve : resolveHandler around h = .ok (h', ds)) :
    h'.map (·.forget k) = h.map (·.forget k) := by
  simp only [resolveHandler, bind_eq_ok, need_eq_ok, pure_eq_ok] at hResolve
  obtain ⟨h, rfl, ⟨b, d⟩, hb, hResolve⟩ := hResolve
  cases hResolve
  simp only [Option.map_some, Handler.forget, resolveBody_keeps hk hb]

theorem resolveState_keeps (h : resolveState around s = .ok (s', ds)) :
    s'.map (·.forget k) = s.map (·.forget k) := by
  simp only [resolveState, bind_eq_ok, need_eq_ok, pure_eq_ok] at h
  obtain ⟨s, rfl, ⟨es, d⟩, hes, h⟩ := h
  cases h
  simp only [Option.map_some, State.forget, notedAll_keeps (resolveHandler_keeps hk) hes]

/-- The resolution of later names changes its own notes only. -/
theorem resolve_keeps {s s' : Script} (h : s.resolve = .ok (s', ds)) : s'.forget k = s.forget k := by
  simp only [resolve, bind_eq_ok, pure_eq_ok] at h
  obtain ⟨⟨gs, dg⟩, hgs, ⟨sts, dst⟩, hsts, h⟩ := h
  cases h
  simp only [forget, notedAll_keeps (resolveGlobal_keeps hk) hgs,
    notedAll_keeps (resolveState_keeps hk) hsts]

omit hk

theorem checkBody_keeps {result : Ty} (h : checkBody result b = .ok (b', ds)) :
    b'.map (·.forget k) = b.map (·.forget k) := by
  simp only [checkBody, bind_eq_ok, need_eq_ok, pure_eq_ok] at h
  obtain ⟨b, rfl, ⟨ss, d⟩, hss, h⟩ := h
  cases h
  simp only [Option.map_some, Block.forget, (Stmt.checkAll_wellTyped hss).keeps]

/-- The check of a global keeps the variable, but for the notes of its initial value. -/
theorem checkGlobalVar_keeps {v v' : GlobalVar} (h : checkGlobalVar cs v = .ok ((v', cs'), ds)) :
    v'.forget k = v.forget k := by
  cases checkGlobalVar_outcome h with
  | zero => rfl
  | found hInfer | unfit hInfer | unfolded hInfer | unconverted hInfer | value hInfer =>
    rw [GlobalVar.forget, GlobalVar.forget, (Expr.infer_infers _ _ _ hInfer).keeps]

theorem checkGlobal_keeps (h : checkGlobal cs g = .ok ((g', cs'), ds)) :
    g'.forget k = g.forget k := by
  cases g with
  | missing => cases h; rfl
  | var v =>
    obtain ⟨v', hv, rfl⟩ := checkGlobal_var.mp h
    exact congrArg Global.var (checkGlobalVar_keeps hv)
  | function f =>
    obtain ⟨b, hb, rfl, rfl⟩ := checkGlobal_function.mp h
    simp only [Global.forget, Function.forget, checkBody_keeps hb]

theorem checkGlobals_keeps {gs gs' : List Global} (h : checkGlobals cs gs = .ok ((gs', cs'), ds)) :
    gs'.map (·.forget k) = gs.map (·.forget k) := by
  induction gs generalizing cs gs' ds with
  | nil => cases h; rfl
  | cons g gs ih =>
    rcases checkGlobals_cons.mp h with ⟨g', hg, _, rfl⟩ | ⟨g', rest, cs₁, hg, hgs, rfl⟩
    · rw [map_cons, map_cons, checkGlobal_keeps hg]
    · rw [map_cons, map_cons, checkGlobal_keeps hg, ih hgs]

theorem checkUntil_keeps {step : α → Except Fault (Noted α)} {raw : α → α}
    (hStep : ∀ {a a' ds}, step a = .ok (a', ds) → raw a' = raw a) {as as' : List α}
    (h : checkUntil step as = .ok (as', ds)) : as'.map raw = as.map raw := by
  induction as generalizing as' ds with
  | nil => cases h; rfl
  | cons a as ih =>
    rcases checkUntil_cons.mp h with ⟨a', ha, _, rfl⟩ | ⟨a', rest, ha, has, rfl⟩
    · rw [map_cons, map_cons, hStep ha]
    · rw [map_cons, map_cons, hStep ha, ih has]

theorem checkHandler_keeps (hCheck : checkHandler h = .ok (h', ds)) :
    h'.map (·.forget k) = h.map (·.forget k) := by
  simp only [checkHandler, bind_eq_ok, need_eq_ok, pure_eq_ok] at hCheck
  obtain ⟨h, rfl, ⟨b, d⟩, hb, hCheck⟩ := hCheck
  cases hCheck
  simp only [Option.map_some, Handler.forget, checkBody_keeps hb]

theorem checkState_keeps (h : checkState s = .ok (s', ds)) :
    s'.map (·.forget k) = s.map (·.forget k) := by
  simp only [checkState, bind_eq_ok, need_eq_ok, pure_eq_ok] at h
  obtain ⟨s, rfl, ⟨es, d⟩, hes, h⟩ := h
  cases h
  simp only [Option.map_some, State.forget, checkUntil_keeps checkHandler_keeps hes]

/-- The type analysis changes notes of types only. -/
theorem check_keeps {s s' : Script} (h : s.check cs = .ok ((s', cs'), ds)) : s'.forget k = s.forget k := by
  rcases check_eq_ok.mp h with ⟨gs, hgs, _, rfl⟩ | ⟨gs, sts, hgs, hsts, rfl⟩
  · simp only [forget, checkGlobals_keeps hgs]
  · simp only [forget, checkGlobals_keeps hgs, checkUntil_keeps checkState_keeps hsts]

end Script

/-- An analysis changes the notes of its script only. -/
theorem Session.perform_raw {s s' : Session} (h : s.perform a = .ok s') :
    s'.script.forget .raw = s.script.forget .raw := by
  cases a with
  | declare =>
    cases h
    exact Script.declare_raw _ _ s.script
  | resolve =>
    simp only [perform, bind_eq_ok, pure_eq_ok] at h
    obtain ⟨⟨script, ds⟩, hResolve, h⟩ := h
    cases h
    exact Script.resolve_keeps (by decide) hResolve
  | check =>
    simp only [perform, bind_eq_ok, pure_eq_ok] at h
    obtain ⟨⟨⟨script, cs⟩, ds⟩, hCheck, h⟩ := h
    cases h
    exact Script.check_keeps hCheck
  | paths =>
    simp only [perform, bind_eq_ok, pure_eq_ok] at h
    obtain ⟨ds, -, h⟩ := h
    cases h
    rfl
  | place =>
    simp only [perform, bind_eq_ok, pure_eq_ok] at h
    obtain ⟨_, -, h⟩ := h
    cases h
    rfl

theorem Session.run_raw {s s' : Session} (h : s.run a = .ok s') :
    s'.script.forget .raw = s.script.forget .raw := by
  unfold run at h
  split at h
  · cases h; rfl
  · exact perform_raw h

end Lsl
