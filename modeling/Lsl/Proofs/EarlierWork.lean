import Lsl.Proofs.NotesOnly
import Lsl.Proofs.RenumberedCode

/-! Compiles over what earlier work has left: notes in the tree, and the labels, places and initial values
that its symbols were given. All of that is kept under the numbers of declaration runs that are over, and a
compile declares every name in a run of its own; so it shows the same as the first compile of the tree. -/
namespace Lsl

open List

variable {a : Analysis} {as : List Analysis} {o o' : CompileOptions} {n m : Nat}

section Tables

variable {β : Type} {t t' : List ((Nat × Nat) × β)}

def Within (round : Nat) (t : List ((Nat × Nat) × β)) : Prop :=
  ∀ r i, round < r → t.lookup (r, i) = none

def SameRun (n m : Nat) (t t' : List ((Nat × Nat) × β)) : Prop := ∀ i, t.lookup (n, i) = t'.lookup (m, i)

theorem Within.mono (h : Within n t) (hLe : n ≤ m) : Within m t :=
  fun r i hLess => h r i (Nat.lt_of_le_of_lt hLe hLess)

/-- Neither table holds anything for the run to come. -/
theorem Within.sameRun (h : Within n t) (h' : Within m t') : SameRun (n + 1) (m + 1) t t' :=
  fun i => (h _ i (Nat.lt_succ_self n)).trans (h' _ i (Nat.lt_succ_self m)).symm

/-- Symbols of runs up to the given one are noted in a table that holds nothing for later runs. -/
theorem Within.tracks (round : Nat) : @Tracks β (min round) (min round)
    fun t t' => t' = t ∧ Within round t where
  look := by
    rintro t _ ⟨rfl, _⟩ s
    rfl
  note := by
    rintro t _ ⟨rfl, hWithin⟩ s b
    refine ⟨rfl, fun r i hLess => ?_⟩
    have hOther : ((r, i) == (s.renumber (min round)).key) = false := by
      have hRun : min round s.round < r := Nat.lt_of_le_of_lt (Nat.min_le_left ..) hLess
      simp only [beq_eq_false_iff_ne, Symbol.key, Symbol.renumber, ne_eq, Prod.mk.injEq, not_and]
      omega
    rw [lookup_cons, hOther]
    exact hWithin r i hLess

/-- The symbols of one run each are noted in two tables. -/
theorem SameRun.tracks (n m : Nat) : @Tracks β (fun _ => n) (fun _ => m) (SameRun n m) where
  look := fun t t' h s => h s.index
  note := by
    intro t t' h s b i
    have hKey : ∀ k : Nat, ((k, i) == (s.renumber fun _ => k).key) = (i == s.index) := by
      intro k
      show (k == k && i == s.index) = _
      rw [beq_self_eq_true, Bool.true_and]
    rw [lookup_cons, lookup_cons, hKey, hKey, h i]

end Tables

namespace Script

/-- Names are declared in the same way in every run. -/
theorem declare_renumber (g : Nat → Nat) (visible : List LibraryFunction) (round : Nat) (s : Script) :
    (s.renote g).declare visible (g round) =
      ((s.declare visible round).1.renote g, (s.declare visible round).2) := by
  obtain ⟨hFound, hTree⟩ := declare_renote g g visible round s
  exact Prod.ext (hTree (.inl rfl)) hFound

/-- Later names are resolved in the same way in every run. -/
theorem resolve_renumber (g : Nat → Nat) (s : Script) :
    Parallel (Noted.Mirrors (fun _ => True) (·.renote g)) s.resolve (s.renote g).resolve :=
  (resolve_renote g g s).imp fun _ _ h => ⟨h.found, fun _ => h.agree (.inl rfl)⟩

/-- Types are noted in the same way in every run, and so are the initial values of globals. -/
theorem check_renumber {g g' : Nat → Nat} {Q : Constants → Constants → Prop} (hQ : Tracks g g' Q)
    {cs cs' : Constants} (h : Q cs cs') (s : Script) :
    Parallel (Twins (fun _ => True) (·.renote g) (·.renote g') Q) ((s.renote g).check cs)
      ((s.renote g').check cs') :=
  (@check_renote g g' g g' Q cs cs' hQ h s).imp fun _ _ h =>
    ⟨fun _ => h.tree ⟨.inl rfl, .inl rfl⟩, h.constants, h.found⟩

end Script

/-- What a compile shows: what was found, the program, and the output. -/
def Compiled.answer (c : Compiled) : List Diagnostic × Program × Bytes × Backend :=
  (c.diagnostics, c.program, c.output, c.backend)

namespace Session

variable {s s' : Session}

/-- A session that has made no symbol but in its runs up to now. -/
structure Settled (s : Session) : Prop where
  script : s.script.renote (min s.round) = s.script
  constants : Within s.round s.constants
  labels : Within s.round s.labels.known
  placed : ∀ r ∈ s.placed, r ≤ s.round

theorem Settled.declare (h : s.Settled) (hRun : s.perform .declare = .ok s') : s'.Settled := by
  cases hRun
  have hLe : s.round ≤ s.round + 1 := Nat.le_succ _
  have hRuns : min (s.round + 1) ∘ min s.round = min s.round := by
    funext r
    show min (s.round + 1) (min s.round r) = min s.round r
    omega
  have hScript : s.script.renote (min (s.round + 1)) = s.script := by
    have hTwice := Script.renumber_renumber (min s.round) (min (s.round + 1)) s.script
    rwa [hRuns, h.script] at hTwice
  have hDeclare := Script.declare_renumber (min (s.round + 1)) (s.library.visible s.privileged) (s.round + 1)
    s.script
  rw [hScript, Nat.min_self] at hDeclare
  exact ⟨(congrArg Prod.fst hDeclare).symm, h.constants.mono hLe, h.labels.mono hLe,
    fun r hr => Nat.le_trans (h.placed r hr) hLe⟩

theorem Settled.resolve (h : s.Settled) (hRun : s.perform .resolve = .ok s') : s'.Settled := by
  obtain ⟨⟨script, ds⟩, hResolve, hRun⟩ := bind_eq_ok.mp hRun
  cases hRun
  have hSame := Script.resolve_renumber (min s.round) s.script
  rw [h.script, hResolve] at hSame
  cases hSame with
  | ok hSame => exact ⟨(hSame.agree trivial).symm, h.constants, h.labels, h.placed⟩

theorem Settled.check (h : s.Settled) (hRun : s.perform .check = .ok s') : s'.Settled := by
  obtain ⟨⟨⟨script, constants⟩, ds⟩, hCheck, hRun⟩ := bind_eq_ok.mp hRun
  cases hRun
  have hRuns : min s.round ∘ min s.round = min s.round := by
    funext r
    show min s.round (min s.round r) = min s.round r
    omega
  have hSame := Script.check_renumber (Within.tracks s.round) ⟨rfl, h.constants⟩ s.script
  rw [h.script, hCheck] at hSame
  cases hSame with
  | ok hSame =>
    obtain ⟨u, hTree, _⟩ := hSame.tree trivial
    refine ⟨?_, hSame.constants.2, h.labels, h.placed⟩
    show script.renote (min s.round) = script
    rw [show script = u.renote (min s.round) from hTree, Script.renumber_renumber, hRuns]

theorem Settled.run (h : s.Settled) (hRun : s.run a = .ok s') : s'.Settled := by
  unfold Session.run at hRun
  split at hRun
  · cases hRun
    exact h
  · cases a with
    | declare => exact h.declare hRun
    | resolve => exact h.resolve hRun
    | check => exact h.check hRun
    | paths =>
      obtain ⟨ds, _, hRun⟩ := bind_eq_ok.mp hRun
      cases hRun
      exact ⟨h.script, h.constants, h.labels, h.placed⟩
    | place =>
      obtain ⟨_, _, hRun⟩ := bind_eq_ok.mp hRun
      cases hRun
      exact ⟨h.script, h.constants, h.labels, List.forall_mem_cons.mpr ⟨Nat.le_refl _, h.placed⟩⟩

theorem Settled.emit {p : Option Program} (h : s.Settled) (hEmit : s.emit = .ok (s', p)) : s'.Settled := by
  unfold Session.emit at hEmit
  split at hEmit
  · cases hEmit
    exact h
  · obtain ⟨⟨p, l⟩, hRun, hEmit⟩ := bind_eq_ok.mp hEmit
    cases hEmit
    have hCode : s.script.emit s.placed s.constants s.labels = .ok (p, l) := hRun
    have hSame := Script.emit_renumber (Within.tracks s.round) (Within.tracks s.round)
      (fun r => Eq.refl (s.placed.contains (min s.round r))) ⟨rfl, h.constants⟩ s.script s.labels s.labels
      ⟨rfl, rfl, h.labels⟩
    rw [h.script, hCode] at hSame
    cases hSame with
    | ok hSame => exact ⟨h.script, h.constants, hSame.2.known.2, h.placed⟩

/-- Sessions as work leaves them: analyses that went through or stopped at an error, programs that were made,
labels that were taken, and new beginnings with another library, over a tree that came without notes. -/
inductive Worked : Session → Prop where
  | start (t : Script) (library : Library) (privileged : Bool) :
      Worked { script := t.forget .raw, library, privileged }
  | run {s s' : Session} {a : Analysis} (h : Worked s) (hRun : s.run a = .ok s') : Worked s'
  | emit {s s' : Session} {p : Option Program} (h : Worked s) (hEmit : s.emit = .ok (s', p)) : Worked s'
  | newLabel {s : Session} (h : Worked s) : Worked s.newLabel.1
  | reset {s : Session} (h : Worked s) (library : Library) (privileged : Bool) :
      Worked { s.reset with library, privileged }

theorem Worked.settled (h : Worked s) : s.Settled := by
  induction h with
  | start t library privileged =>
    exact ⟨Script.renumber_raw _ t, fun _ _ _ => rfl, fun _ _ _ => rfl, by simp⟩
  | run _ hRun ih => exact ih.run hRun
  | emit _ hEmit ih => exact ih.emit hEmit
  | newLabel _ ih => exact ⟨ih.script, ih.constants, ih.labels, ih.placed⟩
  | reset _ library privileged ih => exact ⟨ih.script, ih.constants, ih.labels, ih.placed⟩

/-- Two sessions on one script, each in a run of its own, that have found the same and keep the same for the
symbols of their runs. -/
structure Beside (n m : Nat) (s s' : Session) : Prop where
  script : ∃ u : Script, s.script = u.renote (.renumber fun _ => n) ∧
    s'.script = u.renote (.renumber fun _ => m)
  found : s'.diagnostics = s.diagnostics
  rounds : s.round = n ∧ s'.round = m
  constants : SameRun n m s.constants s'.constants
  labels : Labels.Alike (SameRun n m) s.labels s'.labels
  placed : s.placed.contains n = s'.placed.contains m

theorem Beside.failed (h : Beside n m s s') : s'.failed = s.failed := by
  rw [Session.failed, h.found, Session.failed]

/-- Two sessions with the same tree and library declare its names, each in a new run. -/
theorem Settled.declare_beside (h : s.Settled) (h' : s'.Settled) {t : Script}
    (hTree : s.script = t.forget .raw) (hTree' : s'.script = t.forget .raw)
    (hFound : s'.diagnostics = s.diagnostics) (hLast : s'.labels.last = s.labels.last)
    (hLibrary : s'.library.visible s'.privileged = s.library.visible s.privileged) :
    Parallel (Beside (s.round + 1) (s'.round + 1)) (s.perform .declare) (s'.perform .declare) := by
  let visible := s.library.visible s.privileged
  let first := (t.forget .raw).declare visible 0
  have hRun : ∀ k, (t.forget .raw).declare visible k = (first.1.renote (.renumber fun _ => k), first.2) :=
    by
    intro k
    have hDeclare := Script.declare_renumber (fun _ => k) visible 0 (t.forget .raw)
    rwa [Script.renumber_raw] at hDeclare
  have hUnplaced : ∀ {s : Session}, s.Settled → s.placed.contains (s.round + 1) = false := by
    intro s hs
    simp only [contains_eq_mem, decide_eq_false_iff_not]
    intro hMem
    exact absurd (hs.placed _ hMem) (by omega)
  unfold perform
  simp only [hTree, hTree', hLibrary]
  rw [hRun (s.round + 1), hRun (s'.round + 1)]
  refine .ok ⟨⟨_, rfl, rfl⟩, ?_, ⟨rfl, rfl⟩, ?_, ⟨hLast, ?_⟩, ?_⟩
  · exact congrArg (· ++ _) hFound
  · exact h.constants.sameRun h'.constants
  · exact h.labels.sameRun h'.labels
  · exact (hUnplaced h).trans (hUnplaced h').symm

theorem Beside.perform (h : Beside n m s s') (hLater : a ≠ .declare) :
    Parallel (Beside n m) (s.perform a) (s'.perform a) := by
  obtain ⟨⟨u, hScript, hScript'⟩, hFound, ⟨hRound, hRound'⟩, hConstants, hLabels, hPlaced⟩ := h
  have hReport : ∀ ds, s'.diagnostics ++ ds = s.diagnostics ++ ds := fun ds => congrArg (· ++ ds) hFound
  unfold Session.perform
  rw [hScript, hScript']
  cases a with
  | declare => exact absurd rfl hLater
  | resolve =>
    refine .both (Script.resolve_renumber _ u) (Script.resolve_renumber _ u)
      fun t t₁ t₂ ds hLeft hRight => ?_
    obtain rfl := hLeft trivial
    obtain rfl := hRight trivial
    exact .ok ⟨⟨t, rfl, rfl⟩, hReport ds, ⟨hRound, hRound'⟩, hConstants, hLabels, hPlaced⟩
  | check =>
    refine .twins (Script.check_renumber (SameRun.tracks n m) hConstants u)
      fun t₁ t₂ cs cs' ds hTree hConstants => ?_
    obtain ⟨t, rfl, rfl⟩ := hTree trivial
    exact .ok ⟨⟨t, rfl, rfl⟩, hReport ds, ⟨hRound, hRound'⟩, hConstants, hLabels, hPlaced⟩
  | paths =>
    simp only [Script.paths_renote]
    cases u.paths with
    | error e => exact .fault e
    | ok ds =>
      refine .ok ⟨⟨u, hScript, hScript'⟩, hReport ds, ⟨hRound, hRound'⟩, hConstants, hLabels, ?_⟩
      exact hPlaced
  | place =>
    simp only [Script.requireEntries_renumber]
    cases u.requireEntries with
    | error e => exact .fault e
    | ok _ =>
      refine .ok ⟨⟨u, rfl, rfl⟩, hFound, ⟨hRound, hRound'⟩, hConstants, hLabels, ?_⟩
      show (s.round :: s.placed).contains n = (s'.round :: s'.placed).contains m
      simp [hRound, hRound']

theorem Beside.run (h : Beside n m s s') (hLater : a ≠ .declare) :
    Parallel (Beside n m) (s.run a) (s'.run a) := by
  unfold Session.run
  rw [h.failed]
  cases s.failed with
  | true => exact .ok h
  | false => exact h.perform hLater

/-- The analyses after the declaration of names keep sessions beside each other. -/
theorem Beside.runAll (h : Beside n m s s') (hLater : .declare ∉ as) :
    Parallel (Beside n m) (as.foldlM Session.run s) (as.foldlM Session.run s') := by
  induction as generalizing s s' with
  | nil => exact .ok h
  | cons a as ih =>
    simp only [mem_cons, not_or] at hLater
    obtain ⟨hHead, hTail⟩ := hLater
    exact .bind (h.run (Ne.symm hHead)) fun _ _ hNext => ih hNext hTail

theorem Beside.emit (h : Beside n m s s') :
    Parallel (fun r r' => r'.2 = r.2 ∧ Beside n m r.1 r'.1) s.emit s'.emit := by
  unfold Session.emit
  rw [h.failed]
  cases s.failed with
  | true => exact .ok ⟨rfl, h⟩
  | false =>
    obtain ⟨⟨u, hScript, hScript'⟩, hFound, hRounds, hConstants, hLabels, hPlaced⟩ := h
    have hSame := Script.emit_renumber (SameRun.tracks n m) (SameRun.tracks n m) (fun _ => hPlaced)
      hConstants u s.labels s'.labels hLabels
    rw [hScript, hScript']
    refine .bind hSame ?_
    rintro ⟨p, l⟩ ⟨p', l'⟩ ⟨hProgram, hLabels⟩
    obtain rfl : p' = p := hProgram
    exact .ok ⟨rfl, ⟨u, rfl, rfl⟩, hFound, hRounds, hConstants, hLabels, hPlaced⟩

theorem Beside.finish_eq (h : Beside n m s s') (b : Backend) (p : Program) :
    (s'.finish b p).map Compiled.answer = (s.finish b p).map Compiled.answer := by
  obtain ⟨⟨u, hScript, hScript'⟩, hFound, -, -, -, -⟩ := h
  have hPos : s'.script.pos = s.script.pos := by rw [hScript, hScript', Script.renote, Script.renote]
  unfold finish
  cases b.emit p with
  | ok output => simp only [Except.map, Compiled.answer, Compiled.diagnostics, hFound]
  | error e => simp only [hFound, hPos]

theorem Beside.conclude_eq {x y : Except Fault Session} (h : Parallel (Beside n m) x y) (b : Backend) :
    (conclude b y).map Compiled.answer = (conclude b x).map Compiled.answer := by
  cases h with
  | fault e => rfl
  | @ok s s' h =>
    have hEmit := h.emit
    unfold conclude
    simp only [ok_bind]
    generalize s.emit = r at hEmit
    generalize s'.emit = r' at hEmit
    cases hEmit with
    | fault e => rfl
    | @ok q q' hEmit =>
      obtain ⟨hProgram, hBeside⟩ := hEmit
      obtain ⟨s, p⟩ := q
      obtain ⟨s', p'⟩ := q'
      obtain rfl : p' = p := hProgram
      cases p' with
      | none => exact congrArg (fun ds => Except.error (CompileError.failed ds)) hBeside.found
      | some p => exact hBeside.finish_eq b p

/-- Compiles the script of a session anew. What was noted before is still there, in the tree and for the
symbols of earlier runs. -/
def recompile (s : Session) (o : CompileOptions) : Except CompileError Compiled :=
  conclude o.theBackend { s.reset with library := o.theLibrary, privileged := o.privileged }.analyze

def afresh (s : Session) (o : CompileOptions) : Session :=
  { s.reset with script := s.script.forget .raw, library := o.theLibrary, privileged := o.privileged }

theorem conclude_afresh (s : Session) (o : CompileOptions) :
    conclude o.theBackend (s.afresh o).analyze = s.recompile o := by
  have hEchoes := analyze_echoes { s.reset with library := o.theLibrary, privileged := o.privileged }
  exact Echoes.conclude_eq hEchoes o.theBackend

theorem Settled.afresh (h : s.Settled) (o : CompileOptions) : (s.afresh o).Settled :=
  ⟨Script.renumber_raw _ s.script, h.constants, h.labels, h.placed⟩

/-- The analyses of one tree in two sessions that let it see the same functions of the library. -/
theorem Settled.analyze_beside (h : (s.afresh o).Settled) (h' : (s'.afresh o').Settled)
    (hTree : s'.script.forget .raw = s.script.forget .raw)
    (hVisible : o'.theLibrary.visible o'.privileged = o.theLibrary.visible o.privileged) :
    Parallel (Beside (s.round + 1) (s'.round + 1)) (s.afresh o).analyze (s'.afresh o').analyze := by
  have hDeclare := h.declare_beside h' rfl hTree rfl rfl hVisible
  unfold analyze Analysis.all
  rw [foldlM_cons, foldlM_cons]
  exact .bind hDeclare fun _ _ hNext => hNext.runAll (by simp)

theorem Settled.recompile_eq (h : (s.afresh o).Settled) (h' : (s'.afresh o').Settled)
    (hTree : s'.script.forget .raw = s.script.forget .raw)
    (hVisible : o'.theLibrary.visible o'.privileged = o.theLibrary.visible o.privileged)
    (hBackend : o'.theBackend = o.theBackend) :
    (s'.recompile o').map Compiled.answer = (s.recompile o).map Compiled.answer := by
  rw [← conclude_afresh, ← conclude_afresh, hBackend]
  exact Beside.conclude_eq (h.analyze_beside h' hTree hVisible) o.theBackend

/-- The first compile of a tree. -/
theorem recompile_session (t : Script) (o : CompileOptions) :
    (o.session t).recompile o = compile (some t) o := rfl

/-- A compile does not depend on notes. Whatever they are, trees that agree on all that their readers supplied
compile to the same. Nor does it depend on what earlier work, wherever it stopped, has kept for the symbols of
such trees: a compile with the same options finds the same and either fails in the same way or has the same
program and output, which is also what a first compile gives. -/
theorem recompile_answer (o : CompileOptions) :
    (∀ t t' : Script, t'.forget .raw = t.forget .raw → compile (some t') o = compile (some t) o) ∧
    ∀ s s' : Session, s.Worked → s'.Worked → s'.script.forget .raw = s.script.forget .raw →
      (s'.recompile o).map Compiled.answer = (s.recompile o).map Compiled.answer ∧
      (s.recompile o).map Compiled.answer = (compile (some s.script) o).map Compiled.answer := by
  refine ⟨fun t t' hTree => ?_, fun s s' h h' hTree => ?_⟩
  · rw [← compile_forget, hTree, compile_forget]
  · have hFresh := h.settled.afresh o
    have hFirst : ((o.session s.script).afresh o).Settled :=
      (Worked.start s.script o.theLibrary o.privileged).settled
    refine ⟨hFresh.recompile_eq (h'.settled.afresh o) hTree rfl rfl, ?_⟩
    rw [← recompile_session]
    exact hFirst.recompile_eq hFresh rfl rfl rfl

theorem Worked.runAll (h : s.Worked) (hRun : as.foldlM Session.run s = .ok s') :
    s'.Worked ∧ s'.script.forget .raw = s.script.forget .raw := by
  induction as generalizing s with
  | nil =>
    cases hRun
    exact ⟨h, rfl⟩
  | cons a as ih =>
    rw [foldlM_cons] at hRun
    obtain ⟨s₁, hFirst, hRest⟩ := bind_eq_ok.mp hRun
    obtain ⟨hWorked, hTree⟩ := ih (h.run hFirst) hRest
    exact ⟨hWorked, hTree.trans (run_raw hFirst)⟩

/-- The script of the example, compiled anew after a program was made of it, and compiled for the first
time. -/
theorem recompile_answer_sample : ∃ s s' : Session, s.Worked ∧ s'.Worked ∧
    s'.script.forget .raw = s.script.forget .raw ∧
    (s.round, s.placed, s.constants.length, s.labels.known.length) = (1, [1], 1, 1) ∧
    (s'.round, s'.placed, s'.constants.length, s'.labels.known.length) = (0, [], 0, 0) ∧
    (s'.recompile {}).map Compiled.answer = (s.recompile {}).map Compiled.answer := by
  have hFirst : (start .sample ⟨[]⟩ false).Worked := .start .sample ⟨[]⟩ false
  have hLeft : ((start .sample ⟨[]⟩ false).analyze >>= Session.emit).toOption.map (fun r =>
      (r.1.round, r.1.placed, r.1.constants.length, r.1.labels.known.length)) = some (1, [1], 1, 1) := by
    decide +kernel
  obtain ⟨s, hAnalyze, hFailed⟩ := sample_analyzes
  obtain ⟨t, p, hEmit, _⟩ := (analyze_accepted hAnalyze hFailed).emits
  obtain ⟨hWorked, hTree⟩ := hFirst.runAll hAnalyze
  obtain ⟨_, _, _, hEmitted⟩ := emit_eq_ok hEmit
  have hScript : t.script = s.script := by rw [hEmitted]
  rw [hAnalyze, ok_bind, hEmit] at hLeft
  have hSame : (start .sample ⟨[]⟩ false).script.forget .raw = t.script.forget .raw :=
    by rw [hScript, hTree]
  exact ⟨t, start .sample ⟨[]⟩ false, hWorked.emit hEmit, hFirst, hSame, Option.some.inj hLeft, rfl,
    ((recompile_answer {}).2 t _ (hWorked.emit hEmit) hFirst hSame).1⟩

end Session

end Lsl
