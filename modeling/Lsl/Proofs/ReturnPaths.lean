import Lsl.Proofs.LiveCode
import Lsl.Proofs.Programs

/-! Return paths. Where the analysis of return paths finds no error, the live part of each body is in
order, so control leaves a function with a result only by a return with a value, and any other body
only without one. The exception is a jump to a label that is the whole body of a control statement in
dead code: the analysis takes what follows it to be dead, though the jump leads there. -/
namespace Lsl

open List

variable {ds' : List Diagnostic} {ss : List Stmt}

variable {u : Unit} {ds : List Diagnostic} {told : Bool} {b : Block} {r : Routine}

/-- The places in a body with the given result where returns are checked. -/
def Position.Expects (result : Ty) : Position → Prop
  | .valueFunction => result ≠ .void
  | .voidFunction | .handler => result = .void
  | .dead => False

namespace Paths

variable {owner place : Position} {result : Ty} {d d' : Paths}

theorem report_failed {x : Diagnostic} (h : report x d = (u, d')) (hx : x.isError = true) :
    Diagnostic.failed d'.diagnostics = true := by
  cases h
  simp [Diagnostic.failed, hx]

/-- A return that is not complained about agrees with the result. -/
theorem checkReturn_passes {pos : Pos} {hasValue : Bool} (h : checkReturn pos hasValue place d = (u, d'))
    (hNone : Diagnostic.failed d'.diagnostics = false) :
    d' = d ∧ (place.Expects result → (hasValue = false ↔ result = .void)) := by
  have hReport : ∀ x : Diagnostic, x.isError = true → report x d ≠ (u, d') := by
    intro x hx h
    rw [report_failed h hx] at hNone
    cases hNone
  cases place with
  | valueFunction =>
    cases hasValue with
    | true =>
      cases h
      exact ⟨rfl, fun hExpects => by simpa [Position.Expects] using hExpects⟩
    | false => exact absurd h (hReport _ rfl)
  | voidFunction | handler =>
    cases hasValue with
    | true => exact absurd h (hReport _ rfl)
    | false =>
      cases h
      exact ⟨rfl, fun hExpects => by simpa [Position.Expects] using hExpects⟩
  | dead =>
    cases h
    exact ⟨rfl, fun hExpects => hExpects.elim⟩

def Warns (ds : List Diagnostic) : Prop := ∃ x ∈ ds, x.kind = .deadCode

def Sincere (d : Paths) : Prop := d.warned = true → Warns d.diagnostics

theorem Warns.mono (h : Warns ds) (hSubset : ds ⊆ ds') : Warns ds' := by
  obtain ⟨x, hx, hKind⟩ := h
  exact ⟨x, hSubset hx, hKind⟩

theorem warn_warns {pos : Pos} (h : warn pos d = (u, d')) :
    d.diagnostics ⊆ d'.diagnostics ∧ (d.Sincere → d'.Sincere ∧ Warns d'.diagnostics) := by
  cases h
  cases hWarned : d.warned with
  | true => simpa [hWarned] using fun hSincere : d.Sincere => ⟨hSincere, hSincere hWarned⟩
  | false => simp [hWarned, Sincere, Warns]

/-- What a walk over statements shows if it finds no error: there was none before, the walk tells
whether the statements end the body, it warns if some are dead, and the live returns agree with the
result. -/
structure Passes (result : Ty) (place : Position) (d d' : Paths) (told ends : Bool)
    (live dead : List Stmt) : Prop where
  before : Diagnostic.failed d.diagnostics = false
  found : d.diagnostics ⊆ d'.diagnostics
  sincere : d.Sincere → d'.Sincere
  told : told = ends
  warns : d.Sincere → place ≠ .dead → dead ≠ [] → Warns d'.diagnostics
  agrees : place.Expects result → ∀ t ∈ live, t.Agrees result

/-- A statement that is walked over without effect. -/
theorem Passes.still (hNone : Diagnostic.failed d.diagnostics = false) {live : List Stmt}
    (hAgrees : place.Expects result → ∀ t ∈ live, t.Agrees result) :
    Passes result place d d told told live [] :=
  ⟨hNone, List.Subset.refl _, id, rfl, fun _ _ h => absurd rfl h, hAgrees⟩

/-- A walk over a statement that is no label, and then over those after it. -/
theorem Passes.cons {d₁ d₂ : Paths} {ended ends told : Bool} {s : Stmt} (hLabel : s.isLabel = false)
    (hBefore : Diagnostic.failed d.diagnostics = false) (hFound : d.diagnostics ⊆ d₁.diagnostics)
    (hWarn : d.Sincere → d₁.Sincere ∧ (ended = true → place ≠ .dead → Warns d₁.diagnostics))
    (hHead : Passes result (if ended then .dead else place) d₁ d₂ ends s.ends s.live s.dead)
    (hTail : Passes result place d₂ d' told (Stmt.endsAll (ended || s.ends) ss)
      (Stmt.liveAll (ended || s.ends) ss) (Stmt.deadAll (ended || s.ends) ss)) :
    Passes result place d d' told (Stmt.endsAll ended (s :: ss)) (Stmt.liveAll ended (s :: ss))
      (Stmt.deadAll ended (s :: ss)) := by
  simp only [Stmt.endsAll, Stmt.liveAll, Stmt.deadAll, hLabel, Bool.not_false, Bool.true_and,
    Bool.and_true]
  refine ⟨hBefore, List.Subset.trans (List.Subset.trans hFound hHead.found) hTail.found,
    fun hd => hTail.sincere (hHead.sincere (hWarn hd).1), hTail.told, fun hd hPlace hDead => ?_,
    fun hExpects => ?_⟩
  · rw [Ne, append_eq_nil_iff, not_and_or] at hDead
    rcases hDead with hDead | hDead
    · refine Warns.mono ?_ hTail.found
      cases ended with
      | true => exact ((hWarn hd).2 rfl hPlace).mono hHead.found
      | false => exact hHead.warns (hWarn hd).1 hPlace hDead
    · exact hTail.warns (hHead.sincere (hWarn hd).1) hPlace hDead
  · simp only [mem_append, or_imp, forall_and]
    refine ⟨?_, hTail.agrees hExpects⟩
    cases ended with
    | true => simp
    | false => simpa using hHead.agrees hExpects

theorem stmts_passes {ended : Bool}
    (ih : ∀ s ∈ ss, ∀ place d told d', stmt owner place s d = (told, d') → Diagnostic.failed
      d'.diagnostics = false → Passes result place d d' told s.ends s.live s.dead)
    (h : stmts owner place ended ss d = (told, d')) (hNone : Diagnostic.failed d'.diagnostics = false) :
    Passes result place d d' told (Stmt.endsAll ended ss) (Stmt.liveAll ended ss)
      (Stmt.deadAll ended ss) := by
  induction ss generalizing ended d with
  | nil =>
    cases h
    exact Passes.still hNone (by simp [Stmt.liveAll])
  | cons s ss ihList =>
    simp only [mem_cons, forall_eq_or_imp] at ih
    simp only [stmts, state_bind_eq, state_get_eq] at h
    obtain ⟨_, _, ⟨rfl, rfl⟩, h⟩ := h
    cases hBefore : Diagnostic.failed d.diagnostics with
    | true =>
      rw [if_pos hBefore] at h
      cases h
      rw [hBefore] at hNone
      cases hNone
    | false =>
      rw [if_neg (by simp [hBefore])] at h
      split at h
      · -- A label is live, and so is what follows it.
        have hTail := ihList ih.2 h
        refine ⟨hBefore, hTail.found, hTail.sincere, hTail.told, ?_, fun hExpects => ?_⟩
        · simpa [Stmt.deadAll, Stmt.isLabel, Stmt.dead] using hTail.warns
        · simpa [Stmt.liveAll, Stmt.isLabel, Stmt.live, Stmt.Agrees] using hTail.agrees hExpects
      · rename_i hOther
        have hLabel : s.isLabel = false := by
          cases s with
          | label p name entry => exact (hOther p name entry rfl).elim
          | _ => rfl
        -- With or without a warning, the walk goes on to the statement and those after it.
        obtain ⟨d₁, hFound, hWarn, ends, d₂, hHead, hRest⟩ : ∃ d₁,
            d.diagnostics ⊆ d₁.diagnostics ∧ (d.Sincere → d₁.Sincere ∧
              (ended = true → place ≠ .dead → Warns d₁.diagnostics)) ∧ ∃ ends d₂,
            stmt owner (if ended then .dead else place) s d₁ = (ends, d₂) ∧
              stmts owner place (ended || ends) ss d₂ = (told, d') := by
          split at h
          · simp only [state_bind_eq] at h
            obtain ⟨_, d₁, hWarn, hGoes⟩ := h
            obtain ⟨hFound, hWarns⟩ := warn_warns hWarn
            exact ⟨d₁, hFound, fun hd => ⟨(hWarns hd).1, fun _ _ => (hWarns hd).2⟩, hGoes⟩
          · rename_i hLive
            simp only [state_bind_eq] at h
            refine ⟨d, List.Subset.refl _, fun hd => ⟨hd, fun hEnded hPlace => ?_⟩, h⟩
            simp [hEnded, hPlace] at hLive
        have hTail := ihList ih.2 hRest
        have hHead := ih.1 _ _ _ _ hHead hTail.before
        rw [hHead.told] at hTail
        exact Passes.cons hLabel hBefore hFound hWarn hHead hTail

theorem stmt_passes (s : Stmt) (place : Position) (d : Paths) (told : Bool) (d' : Paths)
    (h : stmt owner place s d = (told, d')) (hNone : Diagnostic.failed d'.diagnostics = false) :
    Passes result place d d' told s.ends s.live s.dead := by
  induction s generalizing place d told d' with
  | block p scope ss ih =>
    have hAll := stmts_passes ih h hNone
    refine ⟨hAll.before, hAll.found, hAll.sincere, hAll.told, hAll.warns, fun hExpects => ?_⟩
    simpa [Stmt.live, Stmt.Agrees] using hAll.agrees hExpects
  | ret p v =>
    simp only [stmt, state_bind_eq, state_pure_eq] at h
    obtain ⟨_, _, hCheck, rfl, rfl⟩ := h
    obtain ⟨rfl, hAgrees⟩ := checkReturn_passes hCheck hNone
    exact Passes.still hNone fun hExpects => by
      simpa [Stmt.live, Stmt.Agrees] using hAgrees hExpects
  | goto p name entry =>
    simp only [stmt] at h
    split at h
    · cases h
      exact Passes.still hNone (by simp [Stmt.live, Stmt.Agrees])
    · simp only [state_bind_eq, state_pure_eq] at h
      obtain ⟨_, _, hReport, rfl, rfl⟩ := h
      rw [report_failed hReport rfl] at hNone
      cases hNone
  | ifThen p c ts t es e iht ihe =>
    simp only [stmt, state_bind_eq] at h
    obtain ⟨told₁, d₁, ht, h⟩ := h
    obtain rfl | hElse := e.missing_or_present
    · cases h
      have hThen := iht _ _ _ _ ht hNone
      refine ⟨hThen.before, hThen.found, hThen.sincere, by simp [Stmt.ends], ?_,
        fun hExpects => ?_⟩
      · simpa [Stmt.dead] using hThen.warns
      · simpa [Stmt.live, Stmt.Agrees, or_imp, forall_and] using hThen.agrees hExpects
    · rw [if_neg (by simp [hElse])] at h
      simp only [state_bind_eq, state_pure_eq] at h
      obtain ⟨told₂, _, he, rfl, rfl⟩ := h
      have hSecond := ihe _ _ _ _ he hNone
      have hFirst := iht _ _ _ _ ht hSecond.before
      refine ⟨hFirst.before, List.Subset.trans hFirst.found hSecond.found,
        fun hSincere => hSecond.sincere (hFirst.sincere hSincere),
        by rw [hFirst.told, hSecond.told, Stmt.ends], fun hSincere hPlace hDead => ?_,
        fun hExpects => ?_⟩
      · rw [Stmt.dead, Ne, append_eq_nil_iff, not_and_or] at hDead
        rcases hDead with hDead | hDead
        · exact (hFirst.warns hSincere hPlace hDead).mono hSecond.found
        · exact hSecond.warns (hFirst.sincere hSincere) hPlace hDead
      · simpa [Stmt.live, Stmt.Agrees, or_imp, forall_and] using
          ⟨hFirst.agrees hExpects, hSecond.agrees hExpects⟩
  | whileLoop p c bs b ih | forLoop p init c step bs b ih =>
    simp only [stmt, state_bind_eq, state_pure_eq] at h
    obtain ⟨_, _, hb, rfl, rfl⟩ := h
    have hBody := ih _ _ _ _ hb hNone
    refine ⟨hBody.before, hBody.found, hBody.sincere, rfl, hBody.warns, fun hExpects => ?_⟩
    simpa [Stmt.live, Stmt.Agrees] using hBody.agrees hExpects
  | doWhile p bs b c ih =>
    have hBody := ih _ _ _ _ h hNone
    refine ⟨hBody.before, hBody.found, hBody.sincere, hBody.told, hBody.warns, fun hExpects => ?_⟩
    simpa [Stmt.live, Stmt.Agrees] using hBody.agrees hExpects
  | _ =>
    cases h
    exact Passes.still hNone (by simp [Stmt.live, Stmt.Agrees])

theorem run_passes (h : run owner (some b) = .ok (told, ds)) (hNone : Diagnostic.failed ds = false)
    (hExpects : owner.Expects result) :
    told = Stmt.endsAll false b.stmts ∧ (Stmt.deadAll false b.stmts ≠ [] → Warns ds) ∧
      ∀ t ∈ Stmt.liveAll false b.stmts, t.Agrees result := by
  simp only [run, bind_eq_ok, need_eq_ok, Option.some.injEq] at h
  obtain ⟨_, rfl, h⟩ := h
  cases h
  have hAll := stmts_passes (fun s _ => @stmt_passes owner result s) rfl hNone
  refine ⟨hAll.told, hAll.warns (by simp [Sincere]) ?_, hAll.agrees hExpects⟩
  rintro rfl
  exact hExpects

end Paths

/-- The analysis of return paths has found the given problems, none of them an error, in a routine. -/
def Routine.Passes (r : Routine) (ds : List Diagnostic) : Prop :=
  ∀ b, r.body = some b → (r.result ≠ .void → Stmt.endsAll false b.stmts = true) ∧
    (Stmt.deadAll false b.stmts ≠ [] → Paths.Warns ds) ∧
    ∀ t ∈ Stmt.liveAll false b.stmts, t.Agrees r.result

theorem Routine.Passes.mono (h : r.Passes ds) (hSubset : ds ⊆ ds') :
    r.Passes ds' := by
  intro b hBody
  obtain ⟨hEnds, hWarns, hAgrees⟩ := h b hBody
  exact ⟨hEnds, fun hDead => (hWarns hDead).mono hSubset, hAgrees⟩

namespace Script

theorem functionPaths_passes {f : Function} (h : functionPaths f = .ok ds)
    (hNone : Diagnostic.failed ds = false) : f.routine.Passes ds := by
  intro b hBody
  have hBody : f.body = some b := hBody
  unfold functionPaths at h
  rw [hBody] at h
  by_cases hVoid : f.result = .void
  · simp only [hVoid, if_true, bind_eq_ok, pure_eq_ok] at h
    obtain ⟨⟨told, ds⟩, hRun, rfl⟩ := h
    exact ⟨fun hValue => absurd hVoid hValue, (Paths.run_passes hRun hNone hVoid).2⟩
  · simp only [hVoid, if_false, bind_eq_ok] at h
    obtain ⟨⟨told, ds'⟩, hRun, h⟩ := h
    simp only at h
    split at h
    · rename_i hEnds
      cases h
      obtain ⟨rfl, hRest⟩ := Paths.run_passes hRun hNone hVoid
      exact ⟨fun _ => by simpa [hNone] using hEnds, hRest⟩
    · cases h
      simp [Diagnostic.failed, Diagnostic.isError] at hNone

theorem handlerPaths_passes {h : Handler} (hPaths : handlerPaths (some h) = .ok ds)
    (hNone : Diagnostic.failed ds = false) : h.routine.Passes ds := by
  intro b hBody
  have hBody : h.body = some b := hBody
  simp only [handlerPaths, bind_eq_ok, need_eq_ok, Option.some.injEq, pure_eq_ok] at hPaths
  obtain ⟨_, rfl, ⟨told, ds⟩, hRun, rfl⟩ := hPaths
  rw [hBody] at hRun
  exact ⟨fun hValue => absurd rfl hValue, (Paths.run_passes hRun hNone rfl).2⟩

/-- Where there is no error, all parts have been looked at and have none. -/
theorem untilError_passes {α : Type} {step : α → Except Fault (List Diagnostic)} {as : List α}
    (h : untilError step as = .ok ds) (hNone : Diagnostic.failed ds = false) :
    ∀ a ∈ as, ∃ ds', step a = .ok ds' ∧ Diagnostic.failed ds' = false ∧ ds' ⊆ ds := by
  induction as generalizing ds with
  | nil => simp
  | cons a as ih =>
    simp only [untilError, bind_eq_ok] at h
    obtain ⟨first, hFirst, h⟩ := h
    split at h
    · rename_i hFailed
      cases h
      rw [hFailed] at hNone
      cases hNone
    · simp only [bind_eq_ok, pure_eq_ok] at h
      obtain ⟨rest, hRest, rfl⟩ := h
      simp only [Diagnostic.failed, any_append, Bool.or_eq_false_iff] at hNone
      simp only [mem_cons, forall_eq_or_imp]
      refine ⟨⟨first, hFirst, hNone.1, subset_append_left ..⟩, fun b hb => ?_⟩
      obtain ⟨ds', hStep, hNone, hSubset⟩ := ih hRest hNone.2 b hb
      exact ⟨ds', hStep, hNone, subset_append_of_subset_right _ hSubset⟩

/-- A script in which the analysis of return paths finds no error. -/
theorem paths_passes {s : Script} (h : s.paths = .ok ds) (hNone : Diagnostic.failed ds = false) :
    ∀ r ∈ s.routines, r.Passes ds := by
  simp only [paths, bind_eq_ok] at h
  obtain ⟨first, hFunctions, h⟩ := h
  split at h
  · rename_i hFailed
    cases h
    rw [hFailed] at hNone
    cases hNone
  · simp only [bind_eq_ok, pure_eq_ok] at h
    obtain ⟨rest, hStates, rfl⟩ := h
    simp only [Diagnostic.failed, any_append, Bool.or_eq_false_iff] at hNone
    intro r hr
    rcases mem_routines.mp hr with ⟨f, hf, rfl⟩ | ⟨st, hst, handler, hh, rfl⟩
    · obtain ⟨_, hPaths, hNone, hSubset⟩ := untilError_passes hFunctions hNone.1 f hf
      exact (functionPaths_passes hPaths hNone).mono (subset_append_of_subset_left _ hSubset)
    · obtain ⟨_, hState, hNone, hSubset⟩ := untilError_passes hStates hNone.2 _ hst
      simp only [statePaths, bind_eq_ok, need_eq_ok, Option.some.injEq] at hState
      obtain ⟨_, rfl, hState⟩ := hState
      obtain ⟨_, hPaths, hNone, hSubset'⟩ := untilError_passes hState hNone _ hh
      exact (handlerPaths_passes hPaths hNone).mono
        (subset_append_of_subset_right _ (List.Subset.trans hSubset' hSubset))

end Script

/-- The live part of a sound routine that passes is in order. -/
theorem Routine.Sound.orderly {Top : Symbol → Prop} {round : Nat} (h : r.Sound Top round b)
    (hBlock : r.body = some b) (hPasses : r.Passes ds) : Orderly r.result b.stmts := by
  obtain ⟨hEnds, _, hAgrees⟩ := hPasses b hBlock
  have hJumps := Stmt.jumpsInto_of_scoped h.jumps
  exact ⟨hEnds, fun t ht => ⟨hAgrees t ht, hJumps t ht⟩, h.distinct.of_map _⟩

/-- Where there are stray labels there is a warning. -/
theorem Routine.Passes.warns (h : r.Passes ds) (hBlock : r.body = some b) {sym : Symbol}
    (hSym : sym ∈ Stmt.strayLabels b.stmts) : ∃ x ∈ ds, x.kind = .deadCode := by
  obtain ⟨t, ht, _⟩ := List.mem_flatMap.mp hSym
  exact (h b hBlock).2.1 (ne_nil_of_mem ht)

/-- A script whose function jumps over its return, into a dead statement:

    integer f() { jump l; return 1; if (1) @l; }
    default { state_entry() {} } -/
def Script.straying : Script :=
  let one : Expr := .int {} 1 .void
  let f : Function :=
    { pos := {}, name := "f", result := .integer, params := []
      body := some
        { pos := {}
          stmts :=
            [.jump {} "l" none, .ret {} one,
             .ifThen {} one none (.label {} "l" none) none .missing] } }
  let entry : Handler :=
    { pos := {}, name := "state_entry", params := [], body := some { pos := {}, stmts := [] } }
  { pos := {}
    globals := [.function f]
    states := [some { pos := {}, name := "default", events := [some entry] }] }

namespace Session

/-- In a script without errors, control comes to the end of a function with a result or to a return
without a value there, or to a return with a value anywhere else, only by a jump to a stray label. The
analysis has then warned of dead code. -/
theorem analyze_returns {script : Script} {library : Library} {privileged : Bool} {s : Session}
    (hAnalyze : (start script library privileged).analyze = .ok s) (hFailed : s.failed = false) :
    ∀ r ∈ s.script.routines, ∃ b, r.body = some b ∧ ∀ oracle n t,
      Arrives r.result b.stmts oracle n t → t.Misleaves r.result →
        (∃ m < n, ∃ t' sym, Arrives r.result b.stmts oracle m t' ∧ t'.Jumps sym ∧
          sym ∈ Stmt.strayLabels b.stmts) ∧ ∃ x ∈ s.diagnostics, x.kind = .deadCode := by
  intro r hr
  obtain ⟨_, _, hAnalyzed⟩ := (analyze_accepted hAnalyze hFailed).routines r hr
  obtain ⟨_, b, _, hBlock, _, hSound⟩ := hAnalyzed.body
  obtain ⟨_, _, _, _, _, _, _, _, hPaths, _, rfl⟩ := analyze_steps hAnalyze hFailed
  have hPasses := Script.paths_passes hPaths hFailed r hr
  refine ⟨b, hBlock, fun oracle n t hArrives hLeaves => ?_⟩
  obtain ⟨m, hm, t', sym, hThere, hJumps, hSym⟩ :=
    (hSound.orderly hBlock hPasses).strays hArrives hLeaves
  exact ⟨⟨m, hm, t', sym, hThere, hJumps, hSym⟩, hPasses.warns hBlock hSym⟩

/-- The jump leads to the end of the function, and there is no error. -/
theorem straying_arrives :
    ∃ s r b t, (start .straying ⟨[]⟩ false).analyze = .ok s ∧ s.failed = false ∧
      r ∈ s.script.routines ∧ r.body = some b ∧ r.result ≠ .void ∧
      Arrives r.result b.stmts (fun _ => true) 1 t ∧ t.Misleaves r.result := by
  have hRun : ((start .straying ⟨[]⟩ false).analyze.toOption.map fun s =>
      (s.failed, s.script.routines.head?.bind fun r => r.body.bind fun b =>
        ((taskMachine r.result b.stmts fun _ => true).run 1 ⟨b.stmts.map .stmt, 0⟩).2.map fun t =>
          (r.result, t.tasks.length))) = some (false, some (.integer, 0)) := by
    decide +kernel
  cases hAnalyze : (start .straying ⟨[]⟩ false).analyze with
  | error f => simp [hAnalyze, Except.toOption] at hRun
  | ok s =>
    simp only [hAnalyze, Except.toOption, Option.map_some, Option.some.injEq, Prod.mk.injEq,
      Option.bind_eq_some_iff, Option.map_eq_some_iff] at hRun
    obtain ⟨hFailed, r, hr, b, hBlock, t, hArrives, hResult, hTasks⟩ := hRun
    have hValue : r.result ≠ .void := by simp [hResult]
    refine ⟨s, r, b, t, rfl, hFailed, mem_of_head? hr, hBlock, hValue, hArrives, ?_⟩
    rw [TaskState.Misleaves, eq_nil_of_length_eq_zero hTasks]
    exact hValue

/-- A function with a result is left without one in a script that has no errors. -/
theorem analyze_misses_end :
    ∃ s, (start .straying ⟨[]⟩ false).analyze = .ok s ∧ s.failed = false ∧
      ∃ r ∈ s.script.routines, r.result ≠ .void ∧ ∃ b oracle n t, r.body = some b ∧
        Arrives r.result b.stmts oracle n t ∧ t.Misleaves r.result := by
  obtain ⟨s, r, b, t, hAnalyze, hFailed, hr, hBlock, hValue, hArrives, hLeaves⟩ := straying_arrives
  exact ⟨s, hAnalyze, hFailed, r, hr, hValue, b, fun _ => true, 1, t, hBlock, hArrives, hLeaves⟩

theorem analyze_returns_straying :
    ∃ s, (start .straying ⟨[]⟩ false).analyze = .ok s ∧ s.failed = false ∧
      ∃ r ∈ s.script.routines, ∃ b oracle n t, r.body = some b ∧
        Arrives r.result b.stmts oracle n t ∧ t.Misleaves r.result ∧
        (∃ m < n, ∃ t' sym, Arrives r.result b.stmts oracle m t' ∧ t'.Jumps sym ∧
          sym ∈ Stmt.strayLabels b.stmts) ∧ ∃ x ∈ s.diagnostics, x.kind = .deadCode := by
  obtain ⟨s, r, b, t, hAnalyze, hFailed, hr, hBlock, _, hArrives, hLeaves⟩ := straying_arrives
  obtain ⟨_, hBody, hReturns⟩ := analyze_returns hAnalyze hFailed r hr
  cases hBlock.symm.trans hBody
  exact ⟨s, hAnalyze, hFailed, r, hr, b, fun _ => true, 1, t, hBlock, hArrives, hLeaves,
    hReturns _ _ _ hArrives hLeaves⟩

end Session
end Lsl
