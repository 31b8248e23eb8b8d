import Lsl.Fingerprint
import Lsl.Proofs.EarlierWork
import Lsl.Proofs.LibraryTables
import Lsl.Proofs.ScopedScripts

/-! What a script owes to the library. A table is the same in whatever order its functions came, and all that
a compile takes from it are the functions that are visible; so a hidden function has no effect, and its name
is free. -/
namespace Lsl

namespace Library

variable {fs gs : List LibraryFunction}

theorem mem_ofCalls {f : LibraryFunction} : f ∈ (ofCalls fs).functions ↔ f ∈ accepted {} fs :=
  proper_empty.calls.2.mem_iff

/-- Calls that add the same functions leave the same table. -/
theorem ofCalls_eq (h : ∀ f, f ∈ accepted {} fs ↔ f ∈ accepted {} gs) : ofCalls fs = ofCalls gs := by
  refine congrArg Library.mk ((proper_ofCalls fs).ascending.ext (proper_ofCalls gs).ascending fun f => ?_)
  exact mem_ofCalls.trans ((h f).trans mem_ofCalls.symm)

/-- What is visible without privileges does not depend on privileged functions. -/
theorem visible_eq (h : ∀ f, f.privileged = false → (f ∈ accepted {} fs ↔ f ∈ accepted {} gs)) :
    (ofCalls fs).visible false = (ofCalls gs).visible false := by
  refine ((proper_ofCalls fs).visible false).2.ext ((proper_ofCalls gs).visible false).2 fun f => ?_
  simp only [visible, Bool.or_false, List.mem_filter, Bool.not_eq_true', mem_ofCalls]
  exact and_congr_left fun hOpen => h f hOpen

/-- A name is visible without privileges unless only a privileged function has it. -/
theorem free_iff {names : List String} :
    (∀ name ∈ names, name ∉ ((ofCalls fs).visible false).map (·.name)) ↔
      ∀ f ∈ accepted {} fs, f.name ∈ names → f.privileged = true := by
  simp only [visible, Bool.or_false, List.mem_map, List.mem_filter, Bool.not_eq_true', mem_ofCalls,
    not_exists, not_and, and_imp]
  constructor
  · intro h f hf hName
    cases hPrivileged : f.privileged with
    | true => rfl
    | false => exact absurd rfl (h f.name hName f hf hPrivileged)
  · rintro h _ hName f hf hOpen rfl
    exact absurd (h f hf hName) (by simp [hOpen])

end Library

/-- A compile sees of a library what is visible. -/
theorem compile_visible (o o' : CompileOptions)
    (hVisible : o'.theLibrary.visible o'.privileged = o.theLibrary.visible o.privileged)
    (hBackend : o'.theBackend = o.theBackend) (script : Option Script) :
    (compile script o').map Compiled.answer = (compile script o).map Compiled.answer := by
  cases script with
  | none => rfl
  | some t =>
    have hFresh : ∀ o : CompileOptions, ((o.session t).afresh o).Settled := fun o =>
      (Session.Worked.start t o.theLibrary o.privileged).settled
    rw [← Session.recompile_session, ← Session.recompile_session]
    exact (hFresh o).recompile_eq (hFresh o') rfl hVisible hBackend

namespace Library

/-- After any calls the names and the indices of a table are unique, the indices have sixteen bits, a function
that was refused has changed nothing, and the functions that were added are listed once each in the order of
their indices. Calls that add the same functions leave tables that nothing can tell apart. Tables that differ
in privileged functions only are the same to compiles without privileges, and in these a script may declare
every name that no visible function has. -/
theorem ofCalls_hides :
    (∀ fs, (ofCalls fs).Proper ∧ (ofCalls fs).functions.Perm (accepted {} fs) ∧
      ∀ f, (ofCalls fs).Admits f ∧ (ofCalls fs).add f = .ok (ofCalls (fs ++ [f])) ∨
        ¬ (ofCalls fs).Admits f ∧ ((ofCalls fs).add f).isOk = false ∧ ofCalls (fs ++ [f]) = ofCalls
          fs) ∧
    (∀ fs gs, (∀ f, f ∈ accepted {} fs ↔ f ∈ accepted {} gs) →
      (ofCalls fs).functions = (ofCalls gs).functions ∧
      (∀ privileged, (ofCalls fs).visible privileged = (ofCalls gs).visible privileged) ∧
      (ofCalls fs).fingerprint = (ofCalls gs).fingerprint ∧
      ∀ script (o : CompileOptions), compile script { o with library := some (ofCalls fs) } =
        compile script { o with library := some (ofCalls gs) }) ∧
    (∀ fs gs, (∀ f, f.privileged = false → (f ∈ accepted {} fs ↔ f ∈ accepted {} gs)) →
      ∀ script (o : CompileOptions), o.privileged = false →
        (compile script { o with library := some (ofCalls fs) }).map Compiled.answer =
          (compile script { o with library := some (ofCalls gs) }).map Compiled.answer) ∧
    ∀ fs (s : Script) round, Diagnostic.failed (s.declare ((ofCalls fs).visible false) round).2 = false ↔
      (s.complete = true ∧ s.KnowsEvents ∧ Declares.startsDefault s.states = true) ∧
        (s.declares.Nodup ∧ ∀ f ∈ accepted {} fs, f.name ∈ s.declares → f.privileged = true) ∧
        Global.WellScopedAll [] s.globals ∧ ∀ st, some st ∈ s.states → st.WellScoped s.varNames := by
  refine ⟨fun fs => ⟨proper_ofCalls fs, proper_empty.calls.2, fun f => ?_⟩, fun fs gs h => ?_,
    fun fs gs h script o hPrivileged => ?_, fun fs s round => ?_⟩
  · have hLast : ofCalls (fs ++ [f]) = (ofCalls fs).call f := List.foldl_append
    rw [hLast]
    exact (call_cases (ofCalls fs) f).imp And.symm fun ⟨hRefused, hSame, hAdmits⟩ =>
      ⟨hAdmits, hRefused, hSame⟩
  · rw [ofCalls_eq h]
    exact ⟨rfl, fun _ => rfl, rfl, fun _ _ => rfl⟩
  · have hVisible : (ofCalls fs).visible o.privileged = (ofCalls gs).visible o.privileged := by
      rw [hPrivileged]
      exact visible_eq h
    exact compile_visible { o with library := some (ofCalls gs) } { o with library := some (ofCalls fs) }
      hVisible rfl
      script
  · rw [(Script.declare_lexical _ round s).1, Script.WellScoped, free_iff]

/-- The script of the example beside a privileged function of the name of its own one. -/
theorem ofCalls_hides_sample : ∃ say hidden : LibraryFunction,
    (ofCalls [hidden, say]).functions = [say, hidden] ∧
      (ofCalls [say, hidden]).functions = [say, hidden] ∧
    (hidden.privileged = true ∧ hidden.name ∈ Script.sample.declares) ∧
    (ofCalls [hidden, say]).fingerprint = (ofCalls [say, hidden]).fingerprint ∧
    (compile (some .sample) { library := some (ofCalls [hidden, say]) }).map Compiled.answer =
      (compile (some .sample) { library := some (ofCalls [say]) }).map Compiled.answer ∧
    Diagnostic.failed (Script.sample.declare ((ofCalls [hidden, say]).visible false) 0).2 = false := by
  obtain ⟨_, hOrder, hHidden, hFree⟩ := ofCalls_hides
  have hAlone := (hFree [] .sample 0).mp (by decide +kernel)
  refine ⟨⟨"llSay", .void, [.integer, .string], false, 1⟩, ⟨"f", .integer, [], true, 5⟩,
    by decide, by decide,
    ⟨rfl, by decide⟩, (hOrder _ _ fun f => ?_).2.2.1, hHidden _ _ (fun f hOpen => ?_) _ {} rfl,
    (hFree _ .sample 0).mpr ⟨hAlone.1, ⟨hAlone.2.1.1, by decide⟩, hAlone.2.2⟩⟩
  · exact (List.Perm.swap _ _ []).mem_iff
  · refine List.mem_cons.trans (or_iff_right ?_)
    rintro rfl
    cases hOpen

end Library
end Lsl
