import Lsl.Proofs.Programs

/-! Scripts that differ in the initial values of their globals only. The analyses look at an initial
value where they stand at it and nowhere else, so two such scripts without errors come out of them
with the same routines. -/
namespace Lsl

open List

variable {around : List Scope} {gs' os' : List Global}

variable {g g' o o' : Global} {gs os : List Global} {visible : List LibraryFunction} {round : Nat}

def Global.bare : Global → Global
  | .var v => .var { v with init := .missing }
  | g => g

def Script.bare (s : Script) : Script := { s with globals := s.globals.map Global.bare }

theorem Global.bare_cases (h : g.bare = g'.bare) :
    g = g' ∨ ∃ v init, g = .var v ∧ g' = .var { v with init } := by
  cases g with
  | var v =>
    cases g' with
    | var v' =>
      refine Or.inr ⟨v, v'.init, rfl, ?_⟩
      obtain ⟨pos, name, ty, init, entry⟩ := v
      obtain ⟨pos', name', ty', init', entry'⟩ := v'
      simp only [bare, Global.var.injEq, GlobalVar.mk.injEq] at h
      obtain ⟨rfl, rfl, rfl, _, rfl⟩ := h
      rfl
    | _ => cases h
  | missing | function f =>
    cases g' with
    | var v' => cases h
    | _ => exact Or.inl h

theorem Script.bare_eq {s s' : Script} : s.bare = s'.bare ↔ s.pos = s'.pos ∧
    s.globals.map Global.bare = s'.globals.map Global.bare ∧ s.states = s'.states ∧
    s.scope = s'.scope := by
  simp [bare]

namespace Declares

variable {d d₁ d₁' : Declaring} {pos : Pos}

/-- A walk over an expression in which nothing is found ends where it began. -/
theorem optional_state {x y : Expr} (h : optional x d = (y, d₁)) (hNone : d₁.diagnostics = []) :
    d₁ = d := by
  have hState : d₁ = { d with diagnostics := d.diagnostics ++ x.bindOptionalProblems d.chain } := by
    cases h
    rfl
  subst hState
  obtain ⟨hBefore, hProblems⟩ := List.append_eq_nil_iff.mp hNone
  rw [hProblems, append_nil]

/-- An initial value in which nothing is found leaves no trace in the walk. -/
theorem globalVar_bare {v v₁ v₂ : GlobalVar} {init : Expr} (h : globalVar v d = (v₁, d₁))
    (h' : globalVar { v with init } d = (v₂, d₁')) (hNone : d₁.diagnostics = [])
    (hNone' : d₁'.diagnostics = []) :
    d₁ = d₁' ∧ (Global.var v₁).bare = (Global.var v₂).bare := by
  obtain ⟨x, d₂, entry, hInit, hDeclare, rfl⟩ := globalVar_steps h
  obtain ⟨y, d₃, entry', hInit', hDeclare', rfl⟩ := globalVar_steps h'
  have hKeeps := fun {entry : Option Symbol} {d d' : Declaring} {sym : Symbol}
      (h : declare v.pos sym d = (entry, d')) =>
    (@declare_keeps (fun _ => True) d d' v.pos sym entry h trivial).1
  obtain rfl := optional_state hInit ((hKeeps hDeclare).diagnostics_eq_nil hNone)
  obtain rfl := optional_state hInit' ((hKeeps hDeclare').diagnostics_eq_nil hNone')
  cases hDeclare.symm.trans hDeclare'
  exact ⟨rfl, rfl⟩

theorem global_bare (hBare : g.bare = g'.bare) (h : global pos g d = (o, d₁))
    (h' : global pos g' d = (o', d₁')) (hNone : d₁.diagnostics = []) (hNone' : d₁'.diagnostics = []) :
    d₁ = d₁' ∧ o.bare = o'.bare := by
  obtain rfl | ⟨v, init, rfl, rfl⟩ := Global.bare_cases hBare
  · rw [h] at h'
    cases h'
    exact ⟨rfl, rfl⟩
  · simp only [global, state_bind_eq, state_pure_eq] at h h'
    obtain ⟨_, _, hVar, rfl, rfl⟩ := h
    obtain ⟨_, _, hVar', rfl, rfl⟩ := h'
    exact globalVar_bare hVar hVar' hNone hNone'

theorem globals_bare {gs gs' os os' : List Global}
    (hBare : gs.map Global.bare = gs'.map Global.bare)
    (h : gs.mapM (global pos) d = (os, d₁)) (h' : gs'.mapM (global pos) d = (os', d₁'))
    (hNone : d₁.diagnostics = []) (hNone' : d₁'.diagnostics = []) :
    d₁ = d₁' ∧ os.map Global.bare = os'.map Global.bare := by
  induction gs generalizing gs' d os os' with
  | nil =>
    cases gs' with
    | nil =>
      cases h
      cases h'
      exact ⟨rfl, rfl⟩
    | cons => cases hBare
  | cons g gs ih =>
    cases gs' with
    | nil => cases hBare
    | cons g' gs' =>
      obtain ⟨hHead, hTail⟩ := List.cons_eq_cons.mp hBare
      obtain ⟨o, d₂, os, ho, hos, rfl⟩ := state_mapM_cons.mp h
      obtain ⟨o', d₂', os', ho', hos', rfl⟩ := state_mapM_cons.mp h'
      obtain ⟨rfl, hFirst⟩ := global_bare hHead ho ho'
        ((globals_keep hos).diagnostics_eq_nil hNone)
        ((globals_keep hos').diagnostics_eq_nil hNone')
      obtain ⟨rfl, hRest⟩ := ih hTail hos hos'
      exact ⟨rfl, by simp only [map_cons, hFirst, hRest]⟩

end Declares

namespace Script

variable {s s' t t' : Script}

theorem declare_run {ds : List Diagnostic} (h : s.declare visible round = (t, ds)) :
    ∃ d, Declares.script s { inner := ⟨visible.map (·.symbol)⟩, round } = (t, d) ∧
      d.diagnostics = ds := by
  cases h
  exact ⟨_, rfl, rfl⟩

/-- Where the declaration of names finds nothing, it has gone through the globals and the states. -/
theorem declare_parts (h : s.declare visible round = (t, [])) : ∃ globals d₁ d₂ sts d₃,
      s.globals.mapM (Declares.global s.pos) { inner := ⟨visible.map (·.symbol)⟩, round } =
        (globals, d₁) ∧ d₁.diagnostics = [] ∧ Declares.requireDefault s d₁ = ((), d₂) ∧
      Declares.states s.pos 0 s.states d₂ = (sts, d₃) ∧ d₃.diagnostics = [] ∧
      t = { s with globals, states := sts, scope := some d₃.inner } := by
  obtain ⟨d, hScript, hNone⟩ := declare_run h
  simp only [Declares.script, state_bind_eq, state_get_eq, state_pure_eq] at hScript
  obtain ⟨globals, d₁, hFirst, _, d₂, hDefault, sts, d₃, hRest, _, _, ⟨rfl, rfl⟩, rfl, rfl⟩ :=
    hScript
  have hSecond : Declaring.Keeps (fun _ => True) d₁ d₂ := Declares.requireDefault_keeps hDefault
  have hBefore := (Declares.states_keep hRest).diagnostics_eq_nil hNone
  exact ⟨globals, d₁, d₂, sts, d₃, hFirst, hSecond.diagnostics_eq_nil hBefore, hDefault, hRest,
    hNone, rfl⟩

/-- Names are declared alike, whatever the initial values are. -/
theorem declare_bare (hBare : s.bare = s'.bare) (h : s.declare visible round = (t, []))
    (h' : s'.declare visible round = (t', [])) : t.bare = t'.bare := by
  obtain ⟨hPos, hGlobals, hStates, _⟩ := bare_eq.mp hBare
  obtain ⟨globals, d₁, d₂, sts, d₃, hFirst, hNone, hDefault, hRest, _, rfl⟩ := declare_parts h
  obtain ⟨globals', d₁', d₂', sts', d₃', hFirst', hNone', hDefault', hRest', _, rfl⟩ :=
    declare_parts h'
  have hSame := @Declares.globals_bare _ _ _ s.pos _ _ _ _ hGlobals hFirst (hPos ▸ hFirst') hNone hNone'
  obtain ⟨rfl, hBares⟩ := hSame
  have hDefaults : Declares.requireDefault s = Declares.requireDefault s' := by
    simp only [Declares.requireDefault, hPos, hStates]
  rw [hDefaults, hDefault'] at hDefault
  cases hDefault
  rw [hPos, hStates, hRest'] at hRest
  cases hRest
  exact bare_eq.mpr ⟨hPos, hBares, rfl, rfl⟩

theorem resolveGlobal_bare {ds ds' : List Diagnostic} (hBare : g.bare = g'.bare)
    (h : resolveGlobal around g = .ok (o, ds)) (h' : resolveGlobal around g' = .ok (o', ds')) :
    o.bare = o'.bare := by
  obtain rfl | ⟨v, init, rfl, rfl⟩ := Global.bare_cases hBare
  · rw [h] at h'
    cases h'
    rfl
  · cases h
    cases h'
    rfl

theorem resolveGlobals_bare {ds ds' : List Diagnostic} (hBare : gs.map Global.bare = gs'.map Global.bare)
    (h : notedAll (resolveGlobal around) gs = .ok (os, ds))
    (h' : notedAll (resolveGlobal around) gs' = .ok (os', ds')) :
    os.map Global.bare = os'.map Global.bare := by
  induction gs generalizing gs' os os' ds ds' with
  | nil =>
    cases gs' with
    | nil =>
      cases h
      cases h'
      rfl
    | cons => cases hBare
  | cons g gs ih =>
    cases gs' with
    | nil => cases hBare
    | cons g' gs' =>
      obtain ⟨hHead, hTail⟩ := List.cons_eq_cons.mp hBare
      simp only [notedAll, bind_eq_ok] at h h'
      obtain ⟨⟨o, da⟩, ho, ⟨os, db⟩, hos, h⟩ := h
      obtain ⟨⟨o', da'⟩, ho', ⟨os', db'⟩, hos', h'⟩ := h'
      cases h
      cases h'
      simp only [map_cons, resolveGlobal_bare hHead ho ho', ih hTail hos hos']

theorem resolve_bare {ds ds' : List Diagnostic} (hBare : s.bare = s'.bare)
    (h : s.resolve = .ok (t, ds)) (h' : s'.resolve = .ok (t', ds')) : t.bare = t'.bare := by
  obtain ⟨hPos, hGlobals, hStates, hScope⟩ := bare_eq.mp hBare
  simp only [resolve, bind_eq_ok] at h h'
  obtain ⟨⟨globals, dg⟩, hFirst, ⟨states, dst⟩, hSecond, h⟩ := h
  obtain ⟨⟨globals', dg'⟩, hFirst', ⟨states', dst'⟩, hSecond', h'⟩ := h'
  cases h
  cases h'
  rw [hScope] at hFirst hSecond
  rw [hStates, hSecond'] at hSecond
  cases hSecond
  exact bare_eq.mpr ⟨hPos, resolveGlobals_bare hGlobals hFirst hFirst', rfl, hScope⟩

end Script

theorem Value.convert?_ty {v w : Value} {t : Ty} (h : v.convert? t = some w) : w.ty = t := by
  unfold convert? at h
  split at h
  · rename_i hSame
    cases h
    exact hSame
  · split at h <;> cases h <;> rfl

/-- The globals whose initial values are known, and the types of these. -/
def Constants.known (cs : Constants) : List ((Nat × Nat) × Ty) :=
  cs.map fun c => (c.1, c.2.value.ty)

theorem Constants.alike_of_known {cs cs' : Constants} (h : cs.known = cs'.known) :
    cs.Alike cs' := by
  have hLookup : ∀ (ds : Constants) k, (ds.lookup k).map (·.value.ty) = ds.known.lookup k := by
    intro ds k
    induction ds with
    | nil => rfl
    | cons c ds ih =>
      obtain ⟨k', c⟩ := c
      simp only [known, map_cons, lookup_cons]
      cases k == k' with
      | true => rfl
      | false => exact ih
  intro s
  unfold constant?
  split
  · rw [hLookup, hLookup, h]
  · rfl

namespace Script

variable {s s' t t' : Script} {cs cs' ds ds' : Constants}

/-- A global variable in which nothing is found has an initial value of its type. -/
theorem checkGlobalVar_records {v w : GlobalVar} (h : checkGlobalVar cs v = .ok ((w, ds), [])) :
    ∃ k c, v.entry = some k ∧ ds = ((k.round, k.index), c) :: cs ∧ c.value.ty = v.ty ∧
      (Global.var w).bare = (Global.var v).bare := by
  cases checkGlobalVar_outcome h with
  | zero hInit hEntry => exact ⟨_, _, hEntry, rfl, Value.zero_ty v.ty, rfl⟩
  | found hInfer hFound => exact absurd rfl hFound
  | value hInfer hFits hFold hConvert hEntry =>
    exact ⟨_, _, hEntry, rfl, Value.convert?_ty hConvert, rfl⟩

theorem checkGlobal_bare (hBare : g.bare = g'.bare) (hKnown : cs.known = cs'.known)
    (h : checkGlobal cs g = .ok ((o, ds), [])) (h' : checkGlobal cs' g' = .ok ((o', ds'), [])) :
    o.bare = o'.bare ∧ ds.known = ds'.known := by
  cases g with
  | var v =>
    cases g' with
    | var v' =>
      obtain ⟨w, hw, rfl⟩ := checkGlobal_var.mp h
      obtain ⟨w', hw', rfl⟩ := checkGlobal_var.mp h'
      obtain ⟨k, c, hk, rfl, hc, hSame⟩ := checkGlobalVar_records hw
      obtain ⟨k', c', hk', rfl, hc', hSame'⟩ := checkGlobalVar_records hw'
      have hFields := GlobalVar.mk.inj (Global.var.inj hBare)
      rw [hk, hk', Option.some.injEq] at hFields
      obtain ⟨_, _, hTy, _, rfl⟩ := hFields
      refine ⟨hSame.trans (hBare.trans hSame'.symm), ?_⟩
      rw [Constants.known, map_cons, hc, hTy, ← hc']
      exact congrArg _ hKnown
    | _ => cases hBare
  | missing =>
    cases g' with
    | missing =>
      cases h
      cases h'
      exact ⟨rfl, hKnown⟩
    | _ => cases hBare
  | function f =>
    cases g' with
    | function f' =>
      cases hBare
      obtain ⟨body, hBody, rfl, rfl⟩ := checkGlobal_function.mp h
      obtain ⟨body', hBody', rfl, rfl⟩ := checkGlobal_function.mp h'
      cases hBody.symm.trans hBody'
      exact ⟨rfl, hKnown⟩
    | _ => cases hBare

theorem checkGlobals_cons_nothing : checkGlobals cs (g :: gs) = .ok ((os, ds), []) ↔ ∃ o rest cs₁,
    checkGlobal cs g = .ok ((o, cs₁), []) ∧ checkGlobals cs₁ gs = .ok ((rest, ds), []) ∧ o ::
      rest = os := by
  simp [checkGlobals_cons]

theorem checkGlobals_bare (hBare : gs.map Global.bare = gs'.map Global.bare) (hKnown : cs.known = cs'.known)
    (h : checkGlobals cs gs = .ok ((os, ds), [])) (h' : checkGlobals cs' gs' = .ok ((os', ds'), [])) :
    os.map Global.bare = os'.map Global.bare ∧ ds.known = ds'.known := by
  induction gs generalizing gs' os os' cs cs' with
  | nil =>
    cases gs' with
    | nil =>
      cases h
      cases h'
      exact ⟨rfl, hKnown⟩
    | cons => cases hBare
  | cons g gs ih =>
    cases gs' with
    | nil => cases hBare
    | cons g' gs' =>
      obtain ⟨hHead, hTail⟩ := List.cons_eq_cons.mp hBare
      obtain ⟨o, rest, cs₁, ho, hRest, rfl⟩ := checkGlobals_cons_nothing.mp h
      obtain ⟨o', rest', cs₁', ho', hRest', rfl⟩ := checkGlobals_cons_nothing.mp h'
      obtain ⟨hFirst, hKnown⟩ := checkGlobal_bare hHead hKnown ho ho'
      obtain ⟨hMore, hKnown⟩ := ih hTail hKnown hRest hRest'
      exact ⟨by simp only [map_cons, hFirst, hMore], hKnown⟩

/-- Where the type analysis finds nothing, it has gone through the globals and the states. -/
theorem check_parts (h : s.check [] = .ok ((t, ds), [])) :
    ∃ globals states, checkGlobals [] s.globals = .ok ((globals, ds), []) ∧
      checkUntil checkState s.states = .ok (states, []) ∧ { s with globals, states } = t := by
  simpa [check_eq_ok] using h

/-- Types are noted alike, whatever the initial values are. -/
theorem check_bare (hBare : s.bare = s'.bare) (h : s.check [] = .ok ((t, ds), []))
    (h' : s'.check [] = .ok ((t', ds'), [])) : t.bare = t'.bare ∧ ds.Alike ds' := by
  obtain ⟨hPos, hGlobals, hStates, hScope⟩ := bare_eq.mp hBare
  obtain ⟨globals, states, hFirst, hSecond, rfl⟩ := check_parts h
  obtain ⟨globals', states', hFirst', hSecond', rfl⟩ := check_parts h'
  obtain ⟨hSame, hKnown⟩ := checkGlobals_bare hGlobals rfl hFirst hFirst'
  rw [hStates, hSecond'] at hSecond
  cases hSecond
  exact ⟨bare_eq.mpr ⟨hPos, hSame, rfl, hScope⟩, Constants.alike_of_known hKnown⟩

theorem functions_bare (s : Script) : s.bare.functions = s.functions := by
  simp only [bare, functions, filterMap_map]
  refine filterMap_congr fun g _ => ?_
  cases g <;> rfl

theorem globalVars_bare (s : Script) :
    s.bare.globalVars = s.globalVars.map fun v => { v with init := .missing } := by
  simp only [bare, globalVars, filterMap_map, map_filterMap]
  refine filterMap_congr fun g _ => ?_
  cases g <;> rfl

/-- Globals have their places by name and type. -/
theorem globalOffsets_bare (vs : List GlobalVar) (start : Nat) :
    globalOffsets start (vs.map fun v => { v with init := .missing }) = globalOffsets start vs := by
  induction vs generalizing start with
  | nil => rfl
  | cons v vs ih => simp only [map_cons, globalOffsets, ih]

/-- The code of two scripts that differ in initial values only has the same surroundings, but for
the constants. -/
theorem surroundings_bare {placed : List Nat} (hBare : s.bare = s'.bare) :
    s'.surroundings placed cs' = (s.surroundings placed cs).initially cs' := by
  have hOffsets : globalOffsets 0 s'.globalVars = globalOffsets 0 s.globalVars := by
    rw [← globalOffsets_bare s'.globalVars, ← globalVars_bare, ← hBare, globalVars_bare,
      globalOffsets_bare]
  simp only [surroundings, Surroundings.initially, hOffsets]

end Script

namespace Session

variable {script script' : Script} {library : Library} {privileged : Bool} {s s' : Session}

/-- Two scripts without errors that differ in initial values only come out of the analyses alike. -/
theorem analyze_bare (hBare : script.bare = script'.bare)
    (h : (start script library privileged).analyze = .ok s) (hFailed : s.failed = false)
    (h' : (start script' library privileged).analyze = .ok s') (hFailed' : s'.failed = false) :
    s.script.bare = s'.script.bare ∧ s.constants.Alike s'.constants := by
  obtain ⟨s₁, s₂, s₃, cs, ds, hDeclare, hResolve, hCheck, _, _, rfl⟩ := analyze_steps h hFailed
  obtain ⟨s₁', s₂', s₃', cs', ds', hDeclare', hResolve', hCheck', _, _, rfl⟩ :=
    analyze_steps h' hFailed'
  have hDeclared := Script.declare_bare hBare hDeclare hDeclare'
  have hResolved := Script.resolve_bare hDeclared hResolve hResolve'
  exact Script.check_bare hResolved hCheck hCheck'

end Session
end Lsl
