import Lsl.Proofs.InitialValues

/-! What the code of bodies owes to the initial values of globals. Literals of vectors, rotations and
lists that can be folded hold globals at their initial values; otherwise the code does not depend on
them. -/
namespace Lsl

open List

variable {xs : List Expr} {c c' : List Instr} {r : Routine} {R S : Routine → Body → Body → Prop}
  {cs : Constants} {e : Surroundings} {script : Script} {library : Library} {privileged : Bool}
  {s : Session}

/-- Whether code ends in a return is not up to its constants. -/
theorem endsInReturn_akin {cs' : Constants} (h : Forall₂ (Instr.Akin cs cs' xs) c c') :
    endsInReturn c = endsInReturn c' := by
  induction h with
  | nil => rfl
  | @cons i j c c' hFirst hRest ih =>
    cases hRest with
    | nil =>
      obtain rfl | ⟨x, _, _, v, w, _, _, rfl, rfl, _⟩ := hFirst
      · rfl
      · rfl
    | cons => simpa [endsInReturn] using ih

theorem Surroundings.finish_twin (h : Twin e.constants cs xs c c') :
    Twin e.constants cs xs (e.finish c) ((e.initially cs).finish c') := by
  unfold finish
  rw [endsInReturn_akin h.akin]
  split
  · exact h
  · exact h.before _

namespace Routine

/-- The expressions that the code of a routine evaluates, and their parts. -/
def evaluated (r : Routine) : List Expr :=
  match r.body with
  | none => []
  | some b => Stmt.evaluatedAll r.result b.stmts

/-- Two bodies of a routine, for two sets of initial values. -/
structure Twins (cs cs' : Constants) (r : Routine) (body body' : Body) : Prop where
  result : body'.result = body.result
  params : body'.params = body.params
  locals : body'.locals = body.locals
  code : Twin cs cs' r.evaluated body.code body'.code

theorem Sound.emitBody_twins {Top : Symbol → Prop} {round : Nat} {b : Block} (h : r.Sound Top round b)
    (hBlock : r.body = some b) (hAlike : e.constants.Alike cs) (l : Labels) :
    ∃ body body' l', emitBody e r.result r.entry r.params r.body l = .ok (body, l') ∧
      emitBody (e.initially cs) r.result r.entry r.params r.body l = .ok (body', l') ∧
      r.Twins e.constants cs body body' := by
  obtain ⟨sym, hEntry, _⟩ := h.entry
  have hInside : (e.enter r.result sym r.params b).constants.Alike cs := hAlike
  obtain ⟨c, c', l', hc, hc', hTwin⟩ :=
    Stmt.codeAll_twin (fun s hs => Stmt.code_twin hInside s (h.ready s hs)) l
  rw [hEntry, hBlock]
  refine ⟨_, _, l', emitBody_eq.mpr ⟨c, hc, rfl⟩, emitBody_eq.mpr ⟨c', hc', rfl⟩, rfl, rfl, rfl,
    ?_⟩
  rw [evaluated, hBlock]
  exact Surroundings.finish_twin (hTwin.after [.enterFrame _])

end Routine

def FunctionCode.Pairs (R : Routine → Body → Body → Prop) (f : Function)
    (c : FunctionCode × FunctionCode) : Prop :=
  c.1.name = f.name ∧ c.2.name = f.name ∧ c.1.index = c.2.index ∧
    R f.routine c.1.body c.2.body

def HandlerCode.Pairs (R : Routine → Body → Body → Prop) (h : Option Handler)
    (c : HandlerCode × HandlerCode) : Prop :=
  ∃ g, h = some g ∧ c.1.kind = g.kind ∧ c.2.kind = g.kind ∧ R g.routine c.1.body c.2.body

/-- The code of a state in two programs, with the handlers in the same order. -/
def StateCode.Pairs (R : Routine → Body → Body → Prop) (s : Option State)
    (c : StateCode × StateCode) : Prop :=
  ∃ t hs, s = some t ∧ c.1.name = t.name ∧ c.2.name = t.name ∧ c.1.index = c.2.index ∧
    c.1.events.length = c.2.events.length ∧ (c.1.events.zip c.2.events).Perm hs ∧
    Forall₂ (HandlerCode.Pairs R) t.events hs

/-- Two programs hold related bodies for each routine of a script, and no others. -/
structure Program.Pairs (R : Routine → Body → Body → Prop) (s : Script) (p q : Program) : Prop where
  count : p.functions.length = q.functions.length
  functions : Forall₂ (FunctionCode.Pairs R) s.functions (p.functions.zip q.functions)
  size : p.states.length = q.states.length
  states : Forall₂ (StateCode.Pairs R) s.states (p.states.zip q.states)

theorem StateCode.Pairs.imp {s : Option State} {c : StateCode × StateCode}
    (hImp : ∀ r b b', R r b b' → S r b b') (h : Pairs R s c) :
    Pairs S s c := by
  obtain ⟨t, hs, hState, hName, hName', hIndex, hLength, hPerm, hHandlers⟩ := h
  refine ⟨t, hs, hState, hName, hName', hIndex, hLength, hPerm, hHandlers.imp ?_⟩
  rintro h c ⟨g, hSome, hKind, hKind', hBodies⟩
  exact ⟨g, hSome, hKind, hKind', hImp _ _ _ hBodies⟩

theorem Program.Pairs.imp {s : Script} {p q : Program} (hImp : ∀ r b b', R r b b' → S r b b')
    (h : Pairs R s p q) : Pairs S s p q := by
  refine ⟨h.count, h.functions.imp ?_, h.size, h.states.imp fun _ _ => StateCode.Pairs.imp hImp⟩
  rintro f c ⟨hName, hName', hIndex, hBodies⟩
  exact ⟨hName, hName', hIndex, hImp _ _ _ hBodies⟩

/-- Bodies that are twins are equal just if the literals that the routine evaluates have equal
constants. -/
theorem Routine.Twins.eq_iff {cs' : Constants} {body body' : Body} (h : r.Twins cs cs' body body') :
    body = body' ↔ ∀ x ∈ r.evaluated, x.isLiteral = true → x.fold cs = x.fold cs' := by
  rw [← h.code.equal]
  constructor
  · rintro rfl
    rfl
  · intro hCode
    obtain ⟨result, params, locals, code⟩ := body
    obtain ⟨result', params', locals', code'⟩ := body'
    obtain ⟨rfl, rfl, rfl, _⟩ := h
    cases hCode
    rfl

theorem emits_mapM_zip {α β : Type} {f g : α → Emits β} {R : α → β × β → Prop} {as : List α}
    (h : ∀ a ∈ as, ∀ l, ∃ b c l', f a l = .ok (b, l') ∧ g a l = .ok (c, l') ∧ R a (b, c))
    (l : Labels) : ∃ bs cs l', as.mapM f l = .ok (bs, l') ∧ as.mapM g l = .ok (cs, l') ∧
      bs.length = cs.length ∧ Forall₂ R as (bs.zip cs) := by
  induction as generalizing l with
  | nil => exact ⟨[], [], l, rfl, rfl, rfl, .nil⟩
  | cons a as ih =>
    obtain ⟨b, c, l₁, hb, hc, hR⟩ := h a (by simp) l
    obtain ⟨bs, cs, l', hbs, hcs, hLength, hRest⟩ := ih (fun x hx => h x (by simp [hx])) l₁
    exact ⟨b :: bs, c :: cs, l', emits_mapM_cons.mpr ⟨b, l₁, bs, hb, hbs, rfl⟩,
      emits_mapM_cons.mpr ⟨c, l₁, cs, hc, hcs, rfl⟩, by simp [hLength], .cons hR hRest⟩

/-- Handlers that are paired stay paired when both lists are put in the order of the events. -/
theorem sorted_zip {bs cs : List HandlerCode} (hLength : bs.length = cs.length)
    (hKind : ∀ c ∈ bs.zip cs, c.1.kind = c.2.kind) :
    (bs.mergeSort fun a b => a.kind.code ≤ b.kind.code).zip
      (cs.mergeSort fun a b => a.kind.code ≤ b.kind.code) =
    (bs.zip cs).mergeSort fun a b => a.1.kind.code ≤ b.1.kind.code := by
  have hFirst : ((bs.zip cs).mergeSort fun a b => a.1.kind.code ≤ b.1.kind.code).map Prod.fst =
      bs.mergeSort fun a b => a.kind.code ≤ b.kind.code := by
    rw [map_mergeSort (s := fun a b : HandlerCode => a.kind.code ≤ b.kind.code) fun _ _ _ _ => rfl,
      map_fst_zip (Nat.le_of_eq hLength)]
  have hSecond : ((bs.zip cs).mergeSort fun a b => a.1.kind.code ≤ b.1.kind.code).map Prod.snd =
      cs.mergeSort fun a b => a.kind.code ≤ b.kind.code := by
    rw [map_mergeSort (s := fun a b : HandlerCode => a.kind.code ≤ b.kind.code)
        fun a ha b hb => by rw [hKind a ha, hKind b hb],
      map_snd_zip (Nat.le_of_eq hLength.symm)]
  rw [← hFirst, ← hSecond, zip_map', map_id']

namespace Session

theorem Accepted.emitBody_twins (h : Accepted script library privileged s) (hr : r ∈ s.script.routines)
    (hAlike : e.constants.Alike cs) (l : Labels) :
    ∃ body body' l', emitBody e r.result r.entry r.params r.body l = .ok (body, l') ∧
      emitBody (e.initially cs) r.result r.entry r.params r.body l = .ok (body', l') ∧
      r.Twins e.constants cs body body' := by
  obtain ⟨r₀, _, hAnalyzed⟩ := h.routines r hr
  obtain ⟨_, b, _, hBlock, _, hSound⟩ := hAnalyzed.body
  exact hSound.emitBody_twins hBlock hAlike l

theorem Accepted.emitFunction_twins (h : Accepted script library privileged s) {f : Function}
    (hf : f ∈ s.script.functions) (hAlike : e.constants.Alike cs) (l : Labels) :
    ∃ c c' l', Script.emitFunction e f l = .ok (c, l') ∧
      Script.emitFunction (e.initially cs) f l = .ok (c', l') ∧
      FunctionCode.Pairs (Routine.Twins e.constants cs) f (c, c') := by
  have hr := Script.mem_routines_function hf
  obtain ⟨sym, hEntry⟩ := h.entry hr
  obtain ⟨body, body', l', hBody, hBody', hTwins⟩ := h.emitBody_twins hr hAlike l
  exact ⟨_, _, l', Script.emitFunction_eq.mpr ⟨sym, body, hEntry, hBody, rfl⟩,
    Script.emitFunction_eq.mpr ⟨sym, body', hEntry, hBody', rfl⟩, rfl, rfl, rfl, hTwins⟩

theorem Accepted.emitState_twins (h : Accepted script library privileged s) {st : Option State}
    (hst : st ∈ s.script.states) (hAlike : e.constants.Alike cs) (l : Labels) :
    ∃ c c' l', Script.emitState e st l = .ok (c, l') ∧
      Script.emitState (e.initially cs) st l = .ok (c', l') ∧
      StateCode.Pairs (Routine.Twins e.constants cs) st (c, c') := by
  obtain ⟨t, sym, rfl, hSym, hHandlers⟩ := (Script.requireEntries_eq_ok h.required).2 st hst
  have hStep : ∀ g ∈ t.events, ∀ l, ∃ c c' l', Script.emitHandler e g l = .ok (c, l') ∧
      Script.emitHandler (e.initially cs) g l = .ok (c', l') ∧
      HandlerCode.Pairs (Routine.Twins e.constants cs) g (c, c') := by
    intro g hg l
    obtain ⟨g, rfl⟩ := hHandlers g hg
    obtain ⟨body, body', l', hBody, hBody', hTwins⟩ :=
      h.emitBody_twins (Script.mem_routines_handler hst hg) hAlike l
    exact ⟨_, _, l', Script.emitHandler_eq.mpr ⟨g, body, rfl, hBody, rfl⟩,
      Script.emitHandler_eq.mpr ⟨g, body', rfl, hBody', rfl⟩, g, rfl, rfl, rfl, hTwins⟩
  obtain ⟨bs, bs', l', hbs, hbs', hLength, hPairs⟩ := emits_mapM_zip hStep l
  have hKind : ∀ c ∈ bs.zip bs', c.1.kind = c.2.kind := by
    intro c hc
    obtain ⟨_, _, g, _, hFirst, hSecond, _⟩ := exists_of_mem_right hPairs hc
    exact hFirst.trans hSecond.symm
  refine ⟨_, _, l', Script.emitState_eq.mpr ⟨t, sym, bs, rfl, hSym, hbs, rfl⟩,
    Script.emitState_eq.mpr ⟨t, sym, bs', rfl, hSym, hbs', rfl⟩, t, bs.zip bs', rfl, rfl, rfl, rfl,
    by simp [hLength], ?_, hPairs⟩
  rw [sorted_zip hLength hKind]
  exact mergeSort_perm _ _

/-- An accepted script has a program for every choice of initial values, and the bodies are twins. -/
theorem Accepted.emit_twins (h : Accepted script library privileged s) {script' : Script}
    {s' : Session} (h' : Accepted script' library privileged s')
    (hBare : s.script.bare = s'.script.bare) (hAlike : s.constants.Alike s'.constants) :
    ∃ t p t' p', s.emit = .ok (t, some p) ∧ s'.emit = .ok (t', some p') ∧
      Program.Pairs (Routine.Twins s.constants s'.constants) s.script p p' := by
  have hAround : s'.surroundings = s.surroundings.initially s'.constants := by
    rw [surroundings, surroundings, h.placed, h'.placed, Script.surroundings_bare hBare]
  have hFunctionsEq : s'.script.functions = s.script.functions := by
    rw [← Script.functions_bare, ← hBare, Script.functions_bare]
  have hStatesEq : s'.script.states = s.script.states := (Script.bare_eq.mp hBare).2.2.1.symm
  obtain ⟨globals, hGlobals⟩ := @Script.emitGlobals_succeeds s.surroundings _
    (Script.requireEntries_eq_ok h.required).1
  obtain ⟨globals', hGlobals'⟩ := @Script.emitGlobals_succeeds s'.surroundings _
    (Script.requireEntries_eq_ok h'.required).1
  obtain ⟨fs, fs', l₁, hfs, hfs', hCount, hFunctions⟩ := emits_mapM_zip
    (R := FunctionCode.Pairs (Routine.Twins s.surroundings.constants s'.constants))
    (fun f hf => h.emitFunction_twins hf hAlike) s.labels
  obtain ⟨sts, sts', l₂, hsts, hsts', hSize, hStates⟩ := emits_mapM_zip
    (R := StateCode.Pairs (Routine.Twins s.surroundings.constants s'.constants))
    (fun st hst => h.emitState_twins hst hAlike) l₁
  have hEmit := Script.emit_eq.mpr ⟨globals, fs, sts, l₁, hGlobals, hfs, hsts, rfl⟩
  rw [← hAround, ← hFunctionsEq, h.labels, ← h'.labels] at hfs'
  rw [← hAround, ← hStatesEq] at hsts'
  have hEmit' := Script.emit_eq.mpr ⟨globals', fs', sts', l₁, hGlobals', hfs', hsts', rfl⟩
  exact ⟨_, _, _, _, emit_of_script h.failed hEmit, emit_of_script h'.failed hEmit',
    hCount, hFunctions, hSize, hStates⟩

/-- The code of a body depends on the initial values of globals through its literals of vectors,
rotations and lists only. Under two choices of initial values the instructions are the same but for
the constants pushed for such literals, and all of them are the same just if these constants are;
so they are where no literal mentions a global. -/
theorem emit_code_eq_iff {script' : Script} {s' : Session} (hBare : script.bare = script'.bare)
    (hAnalyze : (start script library privileged).analyze = .ok s) (hFailed : s.failed = false)
    (hAnalyze' : (start script' library privileged).analyze = .ok s') (hFailed' : s'.failed = false) :
    ∃ t p t' p', s.emit = .ok (t, some p) ∧ s'.emit = .ok (t', some p') ∧
      Program.Pairs (fun r body body' =>
        r.Twins s.constants s'.constants body body' ∧
        (body = body' ↔ ∀ x ∈ r.evaluated, x.isLiteral = true →
          x.fold s.constants = x.fold s'.constants) ∧
        ((∀ x ∈ r.evaluated, x.isLiteral = true → ¬ x.MentionsGlobal) → body = body'))
        s.script p p' := by
  obtain ⟨hSame, hAlike⟩ := analyze_bare hBare hAnalyze hFailed hAnalyze' hFailed'
  obtain ⟨t, p, t', p', hEmit, hEmit', hPairs⟩ := (analyze_accepted hAnalyze hFailed).emit_twins
    (analyze_accepted hAnalyze' hFailed') hSame hAlike
  refine ⟨t, p, t', p', hEmit, hEmit', hPairs.imp fun r body body' hTwins => ?_⟩
  exact ⟨hTwins, hTwins.eq_iff, fun hLocal =>
    hTwins.eq_iff.mpr fun x hx hLiteral => Expr.fold_local (hLocal x hx hLiteral)⟩

end Session

/-- A script whose only handler lists its only global.

    integer g = n;
    default { state_entry() { list l = [g]; } } -/
def Script.holding (n : Int32) : Script :=
  let g : Expr := .ident ⟨{}, "g", "", none, .void⟩
  let entry : Handler :=
    { pos := {}, name := "state_entry", params := []
      body := some { pos := {}, stmts := [.decl {} "l" .list (.list {} [g] .void) none] } }
  { pos := {}
    globals := [.var { pos := {}, name := "g", ty := .integer, init := .int {} n .void }]
    states := [some { pos := {}, name := "default", events := [some entry] }] }

theorem Script.holding_bare (n m : Int32) : (holding n).bare = (holding m).bare := rfl

def Program.codes (p : Program) : List (List Instr) :=
  p.functions.map (·.body.code) ++ p.states.flatMap fun s => s.events.map (·.body.code)

def Instr.listed? : Instr → Option Int32
  | .pushConst (.list [.integer n]) => some n
  | _ => none

namespace Session

theorem holding_emits {n : Int32} (hn : n = 1 ∨ n = 2) :
    ∃ s t p, (start (.holding n) ⟨[]⟩ false).analyze = .ok s ∧ s.failed = false ∧
      s.emit = .ok (t, some p) ∧ p.codes.map (·.filterMap Instr.listed?) = [[n]] := by
  have hRun :
      ((start (.holding n) ⟨[]⟩ false).analyze.toOption.bind fun s => s.emit.toOption.bind fun r =>
        r.2.map fun p => (s.failed, p.codes.map (·.filterMap Instr.listed?))) =
      some (false, [[n]]) := by
    obtain rfl | rfl := hn <;> decide +kernel
  cases hAnalyze : (start (.holding n) ⟨[]⟩ false).analyze with
  | error f => simp [hAnalyze, Except.toOption] at hRun
  | ok s =>
    rcases hEmit : s.emit with f | ⟨t, _ | p⟩
    · simp [hAnalyze, hEmit, Except.toOption] at hRun
    · simp [hAnalyze, hEmit, Except.toOption] at hRun
    · simp only [hAnalyze, hEmit, Except.toOption, Option.bind_some, Option.map_some,
        Option.some.injEq, Prod.mk.injEq] at hRun
      exact ⟨s, t, p, rfl, hRun.1, hEmit, hRun.2⟩

theorem emit_code_eq_iff_holding : ∃ s s', (Script.holding 1).bare = (Script.holding 2).bare ∧
    (start (.holding 1) ⟨[]⟩ false).analyze = .ok s ∧ s.failed = false ∧
    (start (.holding 2) ⟨[]⟩ false).analyze = .ok s' ∧ s'.failed = false ∧
    ∃ t p t' p', s.emit = .ok (t, some p) ∧ s'.emit = .ok (t', some p') ∧
      Program.Pairs (fun r body body' =>
        r.Twins s.constants s'.constants body body' ∧
        (body = body' ↔ ∀ x ∈ r.evaluated, x.isLiteral = true →
          x.fold s.constants = x.fold s'.constants) ∧
        ((∀ x ∈ r.evaluated, x.isLiteral = true → ¬ x.MentionsGlobal) → body = body'))
        s.script p p' := by
  obtain ⟨s, _, _, hAnalyze, hFailed, _⟩ := holding_emits (.inl rfl)
  obtain ⟨s', _, _, hAnalyze', hFailed', _⟩ := holding_emits (.inr rfl)
  exact ⟨s, s', Script.holding_bare 1 2, hAnalyze, hFailed, hAnalyze', hFailed',
    emit_code_eq_iff (Script.holding_bare 1 2) hAnalyze hFailed hAnalyze' hFailed'⟩

/-- A global in a list is frozen at its initial value: two scripts that differ in that value only
have different code. -/
theorem emit_freezes_global : (Script.holding 1).bare = (Script.holding 2).bare ∧
    ∃ s t p s' t' p', (start (.holding 1) ⟨[]⟩ false).analyze = .ok s ∧ s.failed = false ∧
      (start (.holding 2) ⟨[]⟩ false).analyze = .ok s' ∧ s'.failed = false ∧
      s.emit = .ok (t, some p) ∧ s'.emit = .ok (t', some p') ∧ p.codes ≠ p'.codes := by
  obtain ⟨s, t, p, hAnalyze, hFailed, hEmit, hCodes⟩ := holding_emits (.inl rfl)
  obtain ⟨s', t', p', hAnalyze', hFailed', hEmit', hCodes'⟩ := holding_emits (.inr rfl)
  refine ⟨Script.holding_bare 1 2, s, t, p, s', t', p', hAnalyze, hFailed, hAnalyze', hFailed', hEmit,
    hEmit', ?_⟩
  intro hSame
  rw [hSame, hCodes'] at hCodes
  exact absurd hCodes (by decide)

end Session
end Lsl
