import Lsl.Proofs.Routines
import Lsl.Session

/-! Scripts in which the analyses find no error. Every analysis has then run to its end, and each
routine of the annotated script is well typed, has all its names bound, and jumps only to labels of
its own. -/
namespace Lsl

open List

variable {s : Session} {script : Script} {library : Library} {privileged : Bool}

/-- What holds of an analyzed routine with the given body, in a script that offers `Top` symbols at
its top level. -/
structure Routine.Sound (Top : Symbol → Prop) (round : Nat) (r : Routine) (b : Block) : Prop where
  entry : ∃ s, r.entry = some s ∧ s.round = round
  typed : Stmt.WellTyped r.result b.stmts
  made : ∀ kind ty entry, Note.declares kind ty entry ∈ paramNotes r.params ++ Stmt.notesAll b.stmts →
    ∃ s, entry = some s ∧ s.kind = kind ∧ s.ty = ty ∧ s.round = round
  used : ∀ want entry, Note.uses want entry ∈ Stmt.notesAll b.stmts →
    ∃ s, entry = some s ∧ s.kind.serves want = true ∧
      (Top s ∨ s ∈ declaredIn (paramNotes r.params ++ Stmt.notesAll b.stmts))
  distinct : ((labelsIn (Stmt.notesAll b.stmts)).map (·.index)).Nodup
  ordered : Numbered (paramNotes r.params ++ Stmt.notesAll b.stmts)
  jumps : Stmt.Scoped [] [] (.block b.pos b.scope b.stmts)

/-- An analyzed routine, and the routine of the script as it was written. -/
structure Routine.Analyzed (Top : Symbol → Prop) (round : Nat) (r₀ r : Routine) : Prop where
  result : r.result = r₀.result
  params : paramTypes r.params = paramTypes r₀.params
  body : ∃ b₀ b, r₀.body = some b₀ ∧ r.body = some b ∧
    Stmt.localsAll b.stmts = Stmt.localsAll b₀.stmts ∧ r.Sound Top round b

theorem Links.slotsIn_eq {D : Symbol → Prop} {m m' : List Note} (h : Links D m m') :
    slotsIn m' = slotsIn m :=
  h.filterMap_eq fun _ _ hNote => by cases hNote <;> rfl

/-- The three analyses of a routine together. The notes that typing leaves alone come from resolution,
and those that resolution leaves alone come from declaration. -/
theorem Routine.analyzed {Top : Symbol → Prop} {round : Nat} {r₀ r₁ r₂ r : Routine}
    (hDeclared : Routine.Declared Top round r₀ r₁) (hResolved : Routine.Resolved Top r₁ r₂)
    (hChecked : Routine.Checked r₂ r) (hTop : ∀ s, Top s → s.kind ≠ .label) :
    Routine.Analyzed Top round r₀ r := by
  obtain ⟨b₀, b₁, sc, d, d', hb₀, hb₁, hsc, hLocals, hNone, hRound, hChain, hNumbered, hFramed,
    hWalk⟩ := hDeclared.body
  obtain ⟨around, hAround, hBody₂⟩ := hResolved.body
  simp only [Script.resolveBody, bind_eq_ok, need_eq_ok, hb₁, Option.some.injEq, pure_eq_ok,
    Prod.mk.injEq] at hBody₂
  obtain ⟨_, rfl, hb₂, hNone₂⟩ := hBody₂
  have hBody₃ := hChecked.body
  simp only [Script.checkBody, bind_eq_ok, need_eq_ok, ← hb₂, Option.some.injEq, pure_eq_ok,
    Prod.mk.injEq] at hBody₃
  obtain ⟨_, rfl, ⟨ss, ds⟩, hCheck, hb, rfl⟩ := hBody₃
  have hTyped := Stmt.checkAll_wellTyped hCheck
  have hParams : r.params = r₁.params := hChecked.params.trans hResolved.params
  -- All that a name of the body can mean: a symbol of the top level or one declared on the way.
  let D : Symbol → Prop := fun s =>
    Top s ∨ s ∈ declaredIn (paramNotes r₁.params ++ Stmt.notesAll b₁.stmts)
  have hAroundD : ∀ sc ∈ around, sc.All D := fun sc hsc s hs => Or.inl (hAround sc hsc s hs)
  obtain ⟨hVariables, hScopes⟩ := hWalk.known hNone D
    (fun sc hsc s hs => Or.inl (hChain sc hsc s hs)) (fun s hs => Or.inr hs)
  simp only [mem_cons, forall_eq_or_imp] at hScopes
  have hOpen : ∀ sc ∈ blockChain b₁.scope around, sc.All D := by
    rw [hsc]
    exact blockChain_all (by simpa using hScopes.1) hAroundD
  have hLinks := (Stmt.linkAll_assures (fun s _ => s.link_assures) hOpen hOpen hScopes.2).holds hNone₂
  have hNotes : Stmt.notesAll ss = Stmt.notesAll (Stmt.linkAll _ _ b₁.stmts) := hTyped.notes
  have hDeclaredIn : declaredIn (paramNotes r.params ++ Stmt.notesAll ss) =
      declaredIn (paramNotes r₁.params ++ Stmt.notesAll b₁.stmts) := by
    rw [hParams, hNotes, declaredIn_append, declaredIn_append, hLinks.declaredIn_eq]
  have hBefore : ∀ kind ty entry,
      .declares kind ty entry ∈ paramNotes r.params ++ Stmt.notesAll ss →
      .declares kind ty entry ∈ paramNotes r₁.params ++ Stmt.notesAll b₁.stmts := by
    intro kind ty entry hMem
    rw [hParams, hNotes, mem_append] at hMem
    rcases hMem with hMem | hMem
    · exact mem_append_left _ hMem
    · exact mem_append_right _ (hLinks.mem_declares hMem)
  have hSameLocals : Stmt.localsAll ss = Stmt.localsAll b₁.stmts :=
    (Stmt.localsAll_of_forget (hTyped.keeps .raw)).trans
      (Stmt.localsAll_of_forget (Stmt.linkAll_keeps fun s _ => s.link_keeps
        (by decide : Stage.raw ≠ .resolved)))
  refine ⟨?_, ?_, b₀, { b₁ with stmts := ss }, hb₀, hb.symm, hSameLocals.trans hLocals, ?_, ?_, ?_,
    ?_, ?_, ?_, ?_⟩
  · rw [hChecked.result, hResolved.result, hDeclared.result]
  · rw [hParams, hDeclared.params]
  · rw [hChecked.entry, hResolved.entry]
    exact hDeclared.entry
  · rw [hChecked.result]
    exact hTyped.found.holds rfl rfl
  · intro kind ty entry hMem
    have hMem := hBefore kind ty entry hMem
    obtain ⟨s, rfl⟩ := Option.isSome_iff_exists.mp (hWalk.bound hNone kind ty entry hMem)
    obtain ⟨hKind, hTy, hs⟩ := hWalk.made kind ty s hMem
    exact ⟨s, rfl, hKind, hTy, hs.trans hRound⟩
  · intro want entry hMem
    rw [hDeclaredIn]
    rw [hNotes] at hMem
    by_cases hWant : want = .local
    · subst hWant
      exact hVariables entry (mem_append_right _ (hLinks.mem_variable hMem))
    · exact hLinks.mem_bound hWant hMem
  · have hDistinct := hWalk.labels.distinct
    rw [labelsIn_append, labelsIn_paramNotes, nil_append] at hDistinct
    simpa only [hNotes, hLinks.labelsIn_eq] using hDistinct
  · have hSlots : slotsIn (paramNotes r.params ++ Stmt.notesAll ss) =
        slotsIn (paramNotes r₁.params ++ Stmt.notesAll b₁.stmts) := by
      rw [hParams, hNotes, slotsIn_append, slotsIn_append, hLinks.slotsIn_eq]
    intro i ty s hi
    rw [hSlots] at hi
    exact hNumbered i ty s hi
  · have hAmong : ∀ sc ∈ around, sc.All (LabelAmong []) :=
      fun sc hsc s hs hKind => absurd hKind (hTop s (hAround sc hsc s hs))
    have hLinked := (Stmt.block b₁.pos b₁.scope b₁.stmts).link_scoped around around [] [] hAmong
      hAmong hFramed hNone₂
    have hResolved : Stage.resolved ≠ .raw := by decide
    simp only [Stmt.link, Stmt.Scoped] at hLinked ⊢
    rw [← Stmt.ownAll_forget hResolved, ← Stmt.scopedAll_forget fun s _ => s.scoped_forget, hTyped.keeps,
      Stmt.ownAll_forget hResolved, Stmt.scopedAll_forget fun s _ => s.scoped_forget]
    exact hLinked

/-- A script with a global, a function and a loop:

    integer g = 1;
    integer f(integer a) { return a + g; }
    default {
      state_entry() {
        integer i;
        @again;
        for (i = 0; i < 3; ++i) if (f(i)) jump again;
        list l = [i, <1, 2, 3>];
      }
    } -/
def Script.sample : Script :=
  let var (name : String) : Ident := ⟨{}, name, "", none, .void⟩
  let read (name : String) : Expr := .ident (var name)
  let number (n : Int32) : Expr := .int {} n .void
  let f : Function :=
    { pos := {}, name := "f", result := .integer, params := [⟨{}, "a", .integer, none⟩]
      body := some
        { pos := {}
          stmts := [.ret {} (.binary {} .add (read "a") (read "g") .void .void .void)] } }
  let entry : Handler :=
    { pos := {}, name := "state_entry", params := []
      body := some
        { pos := {}
          stmts :=
            [.decl {} "i" .integer .missing none,
             .label {} "again" none,
             .for {} [.assign {} .none (some (var "i")) (number 0) .void .void .void]
               (.binary {} .less (read "i") (number 3) .void .void .void)
               [.incDec {} false true (some (var "i")) .void] none
               (.ifThen {} (.call {} "f" [read "i"] none .void) none (.jump {} "again" none)
                 none .missing),
             .decl {} "l" .list
               (.list {} [read "i", .vector {} (number 1) (number 2) (number 3) .void] .void)
               none] } }
  { pos := {}
    globals := [.var { pos := {}, name := "g", ty := .integer, init := number 1 }, .function f]
    states := [some { pos := {}, name := "default", events := [some entry] }] }

namespace Session

def start (script : Script) (library : Library) (privileged : Bool) : Session :=
  { script, library, privileged }

/-- An analysis after which there is no error has run. -/
theorem run_eq_ok {s' : Session} {a : Analysis} (h : s.run a = .ok s') (hFailed : s'.failed = false) :
    s.failed = false ∧ s.perform a = .ok s' := by
  unfold run at h
  split at h
  · rename_i hBefore
    cases h
    rw [hFailed] at hBefore
    cases hBefore
  · rename_i hBefore
    exact ⟨by simpa using hBefore, h⟩

/-- Where an analysis reports errors only and there is none, it has found nothing. -/
theorem eq_nil_of_not_failed {ds : List Diagnostic} (hErrors : ∀ d ∈ ds, d.isError = true)
    (hFailed : Diagnostic.failed ds = false) : ds = [] := by
  cases ds with
  | nil => rfl
  | cons d ds => simp [Diagnostic.failed, hErrors d (by simp)] at hFailed

/-- The analyses of a script without errors, one after the other. -/
theorem analyze_steps (h : (start script library privileged).analyze = .ok s) (hFailed : s.failed = false) :
    ∃ s₁ s₂ s₃ cs ds,
      script.declare (library.visible privileged) 1 = (s₁, []) ∧ s₁.resolve = .ok (s₂, []) ∧
      s₂.check [] = .ok ((s₃, cs), []) ∧ s₃.paths = .ok ds ∧ s₃.requireEntries = .ok () ∧
      s = { script := s₃, library, privileged, diagnostics := ds, round := 1, placed := [1]
            constants := cs } := by
  simp only [analyze, Analysis.all, foldlM_cons, foldlM_nil, bind_eq_ok, pure_eq_ok] at h
  obtain ⟨t₁, h₁, t₂, h₂, t₃, h₃, t₄, h₄, _, h₅, rfl⟩ := h
  obtain ⟨hFailed₄, h₅⟩ := run_eq_ok h₅ hFailed
  obtain ⟨hFailed₃, h₄⟩ := run_eq_ok h₄ hFailed₄
  obtain ⟨hFailed₂, h₃⟩ := run_eq_ok h₃ hFailed₃
  obtain ⟨hFailed₁, h₂⟩ := run_eq_ok h₂ hFailed₂
  obtain ⟨_, h₁⟩ := run_eq_ok h₁ hFailed₁
  cases hDeclare : script.declare (library.visible privileged) 1 with
  | mk s₁ ds₁ =>
  obtain rfl : t₁ = { script := s₁, library, privileged, diagnostics := ds₁, round := 1 } := by
    simp only [perform, start, hDeclare] at h₁
    cases h₁
    rfl
  obtain rfl := eq_nil_of_not_failed (Script.declare_declared hDeclare).1 hFailed₁
  simp only [perform, bind_eq_ok, pure_eq_ok] at h₂ h₃ h₄ h₅
  obtain ⟨⟨s₂, ds₂⟩, hResolve, rfl⟩ := h₂
  obtain rfl := eq_nil_of_not_failed (Script.resolve_errors hResolve)
    (by simpa [failed, report] using hFailed₂)
  obtain ⟨⟨⟨s₃, cs⟩, ds₃⟩, hCheck, rfl⟩ := h₃
  obtain rfl := eq_nil_of_not_failed (Script.check_checked hCheck).1
    (by simpa [failed, report] using hFailed₃)
  obtain ⟨ds, hPaths, rfl⟩ := h₄
  obtain ⟨_, hRequire, rfl⟩ := h₅
  exact ⟨s₁, s₂, s₃, cs, ds, rfl, hResolve, hCheck, hPaths, hRequire, rfl⟩

/-- A session whose script has passed the analyses. -/
structure Accepted (script : Script) (library : Library) (privileged : Bool) (s : Session) :
    Prop where
  failed : s.failed = false
  placed : s.placed = [1]
  labels : s.labels = {}
  required : s.script.requireEntries = .ok ()
  routines : ∀ r ∈ s.script.routines, ∃ r₀ ∈ script.routines,
    Routine.Analyzed (script.Offers (library.visible privileged) 1) 1 r₀ r

/-- A script in which the analyses find no error is accepted. -/
theorem analyze_accepted (h : (start script library privileged).analyze = .ok s)
    (hFailed : s.failed = false) :
    Accepted script library privileged s := by
  obtain ⟨s₁, s₂, s₃, cs, ds, hDeclare, hResolve, hCheck, _, hRequire, rfl⟩ :=
    analyze_steps h hFailed
  refine ⟨hFailed, rfl, rfl, hRequire, fun r hr => ?_⟩
  have hDeclared := (Script.declare_declared hDeclare).2 rfl
  obtain ⟨r₂, hr₂, hChecked⟩ := exists_of_mem_right ((Script.check_checked hCheck).2 rfl) hr
  obtain ⟨r₁, hr₁, hResolved⟩ := exists_of_mem_right
    ((Script.resolve_resolved hDeclared.scope hDeclared.states hResolve).holds rfl) hr₂
  obtain ⟨r₀, hr₀, hDeclaredRoutine⟩ := exists_of_mem_right hDeclared.routines hr₁
  exact ⟨r₀, hr₀, Routine.analyzed hDeclaredRoutine hResolved hChecked fun _ h => h.kind_ne_label⟩

theorem Accepted.contains_placed (h : Accepted script library privileged s) :
    s.placed.contains 1 = true := by
  rw [h.placed]
  rfl

/-- Whether analyses find no error can be evaluated. -/
theorem analyze_of_toOption (h : s.analyze.toOption.map (·.failed) = some false) :
    ∃ s', s.analyze = .ok s' ∧ s'.failed = false := by
  cases hAnalyze : s.analyze with
  | error f => simp [hAnalyze, Except.toOption] at h
  | ok s' => exact ⟨s', rfl, by simpa [hAnalyze, Except.toOption] using h⟩

theorem sample_analyzes : ∃ s, (start .sample ⟨[]⟩ false).analyze = .ok s ∧ s.failed = false :=
  analyze_of_toOption (by decide +kernel)

end Session
end Lsl
