import Lsl.Compile
import Lsl.Proofs.RenewedTypes

/-! What a compile makes of the notes that its script comes with: nothing. Each analysis leaves the same
whatever is noted of its own and of later analyses, so two sessions on scripts that differ in their notes find
the same and end in the same tree. -/
namespace Lsl

namespace Script

theorem declare_forget (visible : List LibraryFunction) (round : Nat) (s : Script) :
    ((s.forget .raw).declare visible round).2 = (s.declare visible round).2 ∧
    ((s.declare visible round).2 = [] →
      ((s.forget .raw).declare visible round).1 = (s.declare visible round).1.forget .declared) := by
  obtain ⟨hFound, hTree⟩ := declare_renote (.forget .raw) id visible round s
  rw [← forget_eq] at hFound hTree
  rw [Renoting.declared_id, ← forget_eq] at hTree
  exact ⟨hFound, fun hNone => hTree (.inr hNone)⟩

theorem resolve_forget (s : Script) :
    Parallel (Noted.Mirrors (· = []) (·.forget .resolved)) s.resolve (s.forget .declared).resolve := by
  have h := resolve_renote (.forget .raw) id s
  rw [Renoting.declared_id, ← forget_eq] at h
  refine h.imp fun r r' h => ⟨h.found, fun hNone => ?_⟩
  rw [h.agree (.inr hNone), Renoting.resolved_id, ← forget_eq]

theorem check_forget (cs : Constants) (s : Script) :
    Parallel (Noted.Mirrors (· = []) id) (s.check cs) ((s.forget .resolved).check cs) := by
  have hTables : @Tracks Constant id id Eq := ⟨fun _ _ h _ => h ▸ rfl, fun _ _ h _ _ => h ▸ rfl⟩
  have h := @check_renote .same (.forget .raw) id id Eq cs cs hTables rfl s
  have hSame : Renoting.same.resolved id = .same := by rw [Renoting.resolved, Renoting.renumber_id]
  rw [hSame, renote_same, Renoting.resolved_id, ← forget_eq] at h
  refine h.imp fun r r' h => ⟨h.found, fun hNone => ?_⟩
  obtain ⟨t, hLeft, hRight⟩ := h.tree ⟨.inr hNone, .inr hNone⟩
  exact Prod.ext (hRight.trans hLeft.symm) h.constants.symm

end Script

namespace Session

variable {view view' : Script → Script} {s s' : Session}

/-- Two sessions have found the same. Unless that was an error, they differ in the notes of their scripts
at most. -/
structure Echoes (view : Script → Script) (s s' : Session) : Prop where
  found : s'.diagnostics = s.diagnostics
  alike : s.failed = false → s' = { s with script := view s.script }

theorem Echoes.failed (h : Echoes view s s') : s'.failed = s.failed := by
  rw [Session.failed, h.found, Session.failed]

theorem Echoes.run {a : Analysis} (h : Echoes view s s')
    (hPerform : Parallel (Echoes view') (s.perform a) ({ s with script := view s.script }.perform a)) :
    Parallel (Echoes view') (s.run a) (s'.run a) := by
  unfold Session.run
  rw [h.failed]
  cases hFailed : s.failed with
  | true => exact .ok ⟨h.found, fun hNot => by rw [hFailed] at hNot; cases hNot⟩
  | false =>
    rw [h.alike hFailed]
    exact hPerform

/-- Unless an error was found, nothing was found. -/
theorem nothing_of_report {ds : List Diagnostic} (hErrors : ∀ d ∈ ds, d.isError = true)
    (h : (s.report ds).failed = false) : ds = [] := by
  simp only [Session.failed, report, Diagnostic.failed, List.any_append, Bool.or_eq_false_iff] at h
  exact eq_nil_of_not_failed hErrors h.2

theorem perform_declare_echoes (s : Session) : Parallel (Echoes (·.forget .declared)) (s.perform .declare)
    ({ s with script := s.script.forget .raw }.perform .declare) := by
  obtain ⟨hFound, hTree⟩ := Script.declare_forget (s.library.visible s.privileged) (s.round + 1) s.script
  have hErrors := (@Script.declare_declared (s.library.visible s.privileged) (s.round + 1) s.script _ _ rfl).1
  refine .ok ⟨congrArg (s.diagnostics ++ ·) hFound, fun hFailed => ?_⟩
  have hScript := hTree (nothing_of_report hErrors hFailed)
  exact congrArg₂ (fun script ds => { s with script, round := s.round + 1, diagnostics := s.diagnostics ++
    ds })
    hScript hFound

theorem reports_echo {α : Type} {x x' : Except Fault (Noted α)} {f : α → α} (next : α → Session)
    (h : Parallel (Noted.Mirrors (· = []) f) x x')
    (hErrors : ∀ a ds, x = .ok (a, ds) → ∀ d ∈ ds, d.isError = true)
    (hFound : ∀ a a', (next a').diagnostics = (next a).diagnostics)
    (hAlike : ∀ a, next (f a) = { next a with script := view (next a).script }) :
    Parallel (Echoes view) (x >>= fun r => pure ((next r.1).report r.2))
      (x' >>= fun r => pure ((next r.1).report r.2)) := by
  cases h with
  | fault e => exact .fault e
  | @ok r r' h =>
    refine .ok ⟨congrArg₂ List.append (hFound r.1 r'.1) h.found, fun hFailed => ?_⟩
    have hTree := h.agree (nothing_of_report (hErrors r.1 r.2 rfl) hFailed)
    rw [hTree, h.found, hAlike]
    rfl

theorem perform_resolve_echoes (s : Session) : Parallel (Echoes (·.forget .resolved)) (s.perform .resolve)
    ({ s with script := s.script.forget .declared }.perform .resolve) :=
  reports_echo (fun script => { s with script }) s.script.resolve_forget
    (fun _ _ h => (Script.resolve_errors h)) (fun _ _ => rfl) fun _ => rfl

theorem perform_check_echoes (s : Session) : Parallel (Echoes id) (s.perform .check)
    ({ s with script := s.script.forget .resolved }.perform .check) :=
  reports_echo (fun r => { s with script := r.1, constants := r.2 }) (s.script.check_forget s.constants)
    (fun _ _ h => (Script.check_checked h).1) (fun _ _ => rfl) fun _ => rfl

theorem Echoes.refl (x : Except Fault Session) : Parallel (Echoes id) x x := by
  cases x with
  | error e => exact .fault e
  | ok s => exact .ok ⟨rfl, fun _ => rfl⟩

/-- The analyses of a script do not depend on the notes that it comes with. -/
theorem analyze_echoes (s : Session) :
    Parallel (Echoes id) s.analyze { s with script := s.script.forget .raw }.analyze := by
  have hStart : Echoes (·.forget .raw) s { s with script := s.script.forget .raw } := ⟨rfl, fun _ => rfl⟩
  unfold analyze Analysis.all
  simp only [List.foldlM_cons, List.foldlM_nil]
  refine .bind (hStart.run (perform_declare_echoes s)) fun s₁ s₁' h₁ => ?_
  refine .bind (h₁.run (perform_resolve_echoes s₁)) fun s₂ s₂' h₂ => ?_
  refine .bind (h₂.run (perform_check_echoes s₂)) fun s₃ s₃' h₃ => ?_
  refine .bind (h₃.run (Echoes.refl _)) fun s₄ s₄' h₄ => ?_
  exact .bind (h₄.run (Echoes.refl _)) fun s₅ s₅' h₅ => .ok h₅

/-- What a compile answers once its script is analyzed. -/
def conclude (b : Backend) (analyzed : Except Fault Session) : Except CompileError Compiled :=
  match do (← analyzed).emit with
  | .error f => .error (.fault f)
  | .ok (s, none) => .error (.failed s.diagnostics)
  | .ok (s, some p) => s.finish b p

theorem Echoes.conclude_eq {x x' : Except Fault Session} (h : Parallel (Echoes id) x x') (b : Backend) :
    conclude b x' = conclude b x := by
  cases h with
  | fault e => rfl
  | @ok s s' hs =>
    cases hFailed : s.failed with
    | true =>
      have hFailed' : s'.failed = true := hs.failed.trans hFailed
      simp only [conclude, ok_bind, emit, hFailed, hFailed', if_true, hs.found]
    | false =>
      rw [hs.alike hFailed]
      rfl

end Session

/-- A compile does not depend on the notes that its script comes with. -/
theorem compile_forget (s : Script) (o : CompileOptions) :
    compile (some (s.forget .raw)) o = compile (some s) o :=
  Session.Echoes.conclude_eq (Session.analyze_echoes (o.session s)) o.theBackend

end Lsl
