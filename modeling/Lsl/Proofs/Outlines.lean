import Lsl.Proofs.InitialValues
import Lsl.Proofs.NotesOnly

/-! The outline of a script: the names and types at its top level, the events of its states, and the
numbers of its labels. The analyses leave the names and types alone; the declaration of names settles the
events of each state, all different, and gives every label of the script a number of its own. -/
namespace Lsl

open List

variable {sym : Symbol} {h₀ h₁ : Handler} {index : Nat} {d d' : Declaring}

variable {pos : Pos} {t : Script} {st : State} {entry : Option Symbol}

/-- The name that a script has at its top level, with the type if it is a variable's. -/
def Global.outline : Global → Option (String × Option Ty)
  | .missing => none
  | .var v => some (v.name, some v.ty)
  | .function f => some (f.name, none)

def State.kinds (st : State) : List (Option EventKind) := st.events.map (Option.map (·.kind))

def State.heads (st : State) : List (Option (String × EventKind)) :=
  st.events.map (Option.map fun h => (h.name, h.kind))

theorem State.kinds_eq (st : State) : st.kinds = st.heads.map (Option.map Prod.snd) := by
  simp [kinds, heads, Function.comp_def]

def Routine.labels (r : Routine) : List Symbol :=
  labelsIn (Stmt.notesAll ((r.body.map (·.stmts)).getD []))

/-- The events of a state are those of the names of its handlers, and none is handled twice. -/
structure State.Orderly (st : State) : Prop where
  known : ∀ name kind, some (name, kind) ∈ st.heads → EventKind.ofName? name = some kind
  distinct : st.kinds.Nodup

namespace EventKind

/-- An event is known by its name. -/
theorem name_of_ofName? {s : String} {k : EventKind} (h : ofName? s = some k) :
    k.name = s ∧ (s, k.params) ∈ signatures ∧ k.code < 64 := by
  obtain ⟨i, hi, rfl⟩ := Option.map_eq_some_iff.mp h
  obtain ⟨hLess, hName, _⟩ := List.findIdx?_eq_some_iff_getElem.mp hi
  have hCount : signatures.length = 34 := rfl
  have hCode : (UInt8.ofNat i).toNat = i := by
    rw [UInt8.toNat_ofNat', Nat.mod_eq_of_lt (by omega)]
  have hFound : signatures[(UInt8.ofNat i).toNat]? = some signatures[i] := by
    rw [hCode, List.getElem?_eq_getElem hLess]
  have hSame : signatures[i].1 = s := by simpa using hName
  simp only [name, params, hFound, ← hSame]
  refine ⟨trivial, getElem_mem hLess, ?_⟩
  rw [UInt8.lt_iff_toNat_lt, hCode]
  exact Nat.lt_of_lt_of_le hLess (by decide)

end EventKind

namespace Script

/-- The names and types of variables are those of the outline. -/
theorem globalVars_outline (s : Script) : s.globalVars.map (fun v => (v.name, v.ty)) =
    (s.globals.map Global.outline).filterMap fun o => o.bind fun (n, t) => t.map (n, ·) := by
  rw [globalVars, map_filterMap, filterMap_map]
  refine filterMap_congr fun g _ => ?_
  cases g <;> rfl

theorem functions_outline (s : Script) : s.functions.map (·.name) =
    (s.globals.map Global.outline).filterMap fun o => o.bind fun (n, t) => if t.isNone then some n else
      none := by
  rw [functions, map_filterMap, filterMap_map]
  refine filterMap_congr fun g _ => ?_
  cases g <;> rfl

end Script

namespace Declaring

/-- What a step at the top level of a script does to the numbers of labels, where `rs` are the routines
that it declares. -/
abbrev NumbersIn (d d' : Declaring) (rs : List Routine) : Prop := Numbers d d' (rs.flatMap Routine.labels)

theorem NumbersIn.trans {d'' : Declaring} {rs rs' : List Routine} (h : NumbersIn d d' rs)
    (h' : NumbersIn d' d'' rs') : NumbersIn d d'' (rs ++ rs') := by
  rw [NumbersIn, flatMap_append]
  exact Numbers.trans h h'

end Declaring

namespace Declares

open Declaring (NumbersIn)

theorem declare_numbers (h : declare pos sym d = (entry, d')) : NumbersIn d d' [] := by
  obtain ⟨inner, _, _, rfl⟩ | ⟨_, rfl⟩ := declare_cases h
  · exact .none rfl (Nat.le_refl _)
  · exact .none rfl (Nat.le_refl _)

/-- A name that is declared without complaint was free in the open scope, and is taken there now. -/
theorem declare_takes (h : declare pos sym d = (entry, d')) (hNone : d'.diagnostics = []) :
    d.inner.local? sym.name = none ∧
      d'.inner.symbols = d.inner.symbols ++ [{ sym with round := d.round }] := by
  obtain ⟨inner, hScope, _, rfl⟩ | ⟨_, rfl⟩ := declare_cases h
  · unfold Scope.declare? at hScope
    split at hScope
    · cases hScope
    · next hFree =>
      cases hScope
      exact ⟨Option.not_isSome_iff_eq_none.mp hFree, rfl⟩
  · simp at hNone

theorem report_numbers {ds : List Diagnostic} {u : Unit} (h : report ds d = (u, d')) :
    NumbersIn d d' [] := by
  cases h
  exact .none rfl (Nat.le_refl _)

theorem frame_numbers {result : Ty} {ps ps' : List Param} {b b' : Block}
    (h : frame ps b d = ((ps', b'), d')) : NumbersIn d d' [⟨result, entry, ps', some b'⟩] := by
  obtain ⟨_, _, _, _, _, hWalk⟩ := frame_walks h
  have hLabels := hWalk.labels
  rw [labelsIn_append, labelsIn_paramNotes, nil_append] at hLabels
  simpa [NumbersIn, Routine.labels] using hLabels

theorem function_numbers {f f' : Function} (h : function f d = (f', d')) (hNone : d'.diagnostics = []) :
    NumbersIn d d' [f'.routine] := by
  obtain ⟨entry, d₁, ps, b, hDeclare, hBody, rfl⟩ := function_steps h
  obtain ⟨hReport, _⟩ | ⟨c, c', hFrame, _, rfl⟩ := framed_cases hBody
  · cases hReport
    simp at hNone
  · obtain ⟨hCounted, hNumbered, hDistinct⟩ := (declare_numbers hDeclare).trans (frame_numbers hFrame)
    exact ⟨hCounted, hNumbered, hDistinct⟩

theorem global_numbers {g g' : Global} (h : global pos g d = (g', d'))
    (hNone : d'.diagnostics = []) : NumbersIn d d' g'.routines := by
  obtain ⟨rfl, rfl, hReport⟩ | ⟨v, v', rfl, rfl, hVar⟩ | ⟨f, f', rfl, rfl, hFunction⟩ :=
    global_cases h
  · exact report_numbers hReport
  · obtain ⟨init, d₁, entry, hInit, hDeclare, rfl⟩ := globalVar_steps hVar
    cases hInit
    obtain ⟨hCounted, hNumbered, hDistinct⟩ := declare_numbers hDeclare
    exact ⟨hCounted, hNumbered, hDistinct⟩
  · exact function_numbers hFunction hNone

theorem globals_numbers {gs gs' : List Global} (h : gs.mapM (global pos) d = (gs', d'))
    (hNone : d'.diagnostics = []) : NumbersIn d d' (gs'.flatMap Global.routines) := by
  induction gs generalizing d gs' with
  | nil =>
    cases h
    exact .none rfl (Nat.le_refl _)
  | cons g gs ih =>
    obtain ⟨g', d₁, gs', hg, hgs, rfl⟩ := state_mapM_cons.mp h
    exact (global_numbers hg ((globals_keep hgs).diagnostics_eq_nil hNone)).trans (ih hgs)

/-- A handler of which nothing is found has taken its name in the scope of the state. -/
theorem knownHandler_outline {kind : EventKind} (h : knownHandler kind h₀ d = (h₁, d'))
    (hNone : d'.diagnostics = []) :
    (h₁.name, h₁.kind) = (h₀.name, kind) ∧ d.inner.local? h₀.name = none ∧
      (∃ sym, sym.name = h₀.name ∧ d'.inner.symbols = d.inner.symbols ++ [sym]) ∧
      NumbersIn d d' [h₁.routine] := by
  obtain ⟨entry, d₁, ps, b, hDeclare, hBody, rfl⟩ := knownHandler_steps h
  obtain ⟨hReport, _⟩ | ⟨c, c', hFrame, _, rfl⟩ := framed_cases hBody
  · cases hReport
    simp at hNone
  · obtain ⟨hInner, _, _, _, _, hWalk⟩ := frame_walks hFrame
    obtain ⟨hFree, hTaken⟩ := declare_takes hDeclare (hWalk.diagnostics_eq_nil hNone)
    exact ⟨rfl, hFree, ⟨_, rfl, by rw [hInner, hTaken]⟩,
      (declare_numbers hDeclare).trans (frame_numbers hFrame)⟩

theorem handler_outline (h : handler h₀ d = (h₁, d')) (hNone : d'.diagnostics = []) :
    EventKind.ofName? h₁.name = some h₁.kind ∧ d.inner.local? h₁.kind.name = none ∧
      (∃ sym, sym.name = h₁.kind.name ∧ d'.inner.symbols = d.inner.symbols ++ [sym]) ∧
      NumbersIn d d' [h₁.routine] := by
  cases hKind : EventKind.ofName? h₀.name with
  | none =>
    simp only [handler, hKind, state_bind_eq, state_pure_eq] at h
    obtain ⟨_, _, hReport, _, rfl⟩ := h
    cases hReport
    simp at hNone
  | some kind =>
    obtain ⟨hName, _⟩ := EventKind.name_of_ofName? hKind
    simp only [handler, hKind] at h
    by_cases hTypes : paramTypes h₀.params = kind.params
    · simp only [hTypes, ne_eq, not_true_eq_false, if_false] at h
      obtain ⟨hSame, hFree, hTaken, hNumbers⟩ := knownHandler_outline h hNone
      obtain ⟨hSameName, rfl⟩ := Prod.mk.inj hSame
      rw [hSameName, hName]
      exact ⟨hKind, hFree, hTaken, hNumbers⟩
    · simp only [hTypes, ne_eq, not_false_eq_true, if_true, state_bind_eq] at h
      obtain ⟨_, d₁, hReport, h⟩ := h
      cases hReport
      have hBefore :=
        (@knownHandler_declared (fun _ => True) _ _ _ _ _ h (by simp)).1.diagnostics_eq_nil hNone
      simp at hBefore

theorem local?_of_append {name : String} {s s' : Scope} (h : s'.symbols = s.symbols ++ [sym])
    (hFree : s'.local? name = none) :
    s.local? name = none ∧ sym.name ≠ name := by
  simp only [Scope.local?, h, List.find?_append, Option.or_eq_none_iff] at hFree
  exact ⟨hFree.1, by simpa using hFree.2⟩

/-- The events of handlers that are declared one after the other are all different: each takes its name,
which was free until then. -/
theorem events_outline {es es' : List (Option Handler)} (h : es.mapM (event st) d = (es', d'))
    (hNone : d'.diagnostics = []) :
    (∀ h, some h ∈ es' → EventKind.ofName? h.name = some h.kind ∧
      d.inner.local? h.kind.name = none) ∧
      (es'.map (Option.map (·.kind))).Nodup ∧ NumbersIn d d' (es'.flatMap handlerRoutines) := by
  induction es generalizing d es' with
  | nil =>
    cases h
    exact ⟨by simp, .nil, .none rfl (Nat.le_refl _)⟩
  | cons e es ih =>
    obtain ⟨e', d₁, es', he, hes, rfl⟩ := state_mapM_cons.mp h
    have hBefore := (events_keep hes).diagnostics_eq_nil hNone
    obtain ⟨hKinds, hDistinct, hRest⟩ := ih hes
    cases e with
    | none =>
      simp only [event, state_bind_eq, state_pure_eq] at he
      obtain ⟨_, _, hReport, _, rfl⟩ := he
      cases hReport
      simp at hBefore
    | some h₀ =>
      simp only [event, state_bind_eq, state_pure_eq] at he
      obtain ⟨h₁, _, hHandler, rfl, rfl⟩ := he
      obtain ⟨hKnown, hFree, ⟨sym, hName, hTaken⟩, hFirst⟩ := handler_outline hHandler hBefore
      have hLater : ∀ h, some h ∈ es' →
          d.inner.local? h.kind.name = none ∧ h.kind.name ≠ h₁.kind.name := by
        intro h hh
        obtain ⟨hUnused, hOther⟩ := local?_of_append hTaken (hKinds h hh).2
        exact ⟨hUnused, fun hSame => hOther (hName.trans hSame.symm)⟩
      refine ⟨?_, ?_, hFirst.trans hRest⟩
      · simp only [mem_cons, Option.some.injEq]
        rintro h (rfl | hh)
        · exact ⟨hKnown, hFree⟩
        · exact ⟨(hKinds h hh).1, (hLater h hh).1⟩
      · refine List.nodup_cons.mpr ⟨fun hMem => ?_, hDistinct⟩
        obtain ⟨_, hh, hKind⟩ := List.mem_map.mp hMem
        obtain ⟨h, rfl, hKind⟩ := Option.map_eq_some_iff.mp hKind
        exact (hLater h hh).2 (congrArg EventKind.name (Option.some.inj hKind))

theorem state_outline {st' : State} (h : state index st d = (st', d')) (hNone : d'.diagnostics = []) :
    st'.Orderly ∧ NumbersIn d d' (stateRoutines (some st')) := by
  obtain ⟨entry, d₁, events, d₂, hDeclare, hEvents, rfl, rfl⟩ := state_steps h
  obtain ⟨hKinds, hDistinct, hNumbers⟩ := events_outline hEvents hNone
  refine ⟨⟨fun name kind hHead => ?_, hDistinct⟩, (declare_numbers hDeclare).trans ?_⟩
  · obtain ⟨_, hh, hHead⟩ := List.mem_map.mp hHead
    obtain ⟨h, rfl, hHead⟩ := Option.map_eq_some_iff.mp hHead
    cases hHead
    exact (hKinds h hh).1
  exact ⟨hNumbers.counted, hNumbers.numbered, hNumbers.distinct⟩

theorem states_outline {sts sts' : List (Option State)} (h : states pos index sts d = (sts', d'))
    (hNone : d'.diagnostics = []) :
    (∀ st, some st ∈ sts' → st.Orderly) ∧ NumbersIn d d' (sts'.flatMap stateRoutines) := by
  induction sts generalizing index d sts' with
  | nil =>
    cases h
    exact ⟨by simp, .none rfl (Nat.le_refl _)⟩
  | cons st sts ih =>
    obtain ⟨st, st', d₁, sts', hst, hBefore, hsts, rfl⟩ := states_cons h hNone
    obtain ⟨hOrderly, hFirst⟩ := state_outline hst hBefore
    obtain ⟨hAll, hRest⟩ := ih hsts
    refine ⟨?_, hFirst.trans hRest⟩
    simp only [mem_cons, Option.some.injEq]
    rintro t (rfl | ht)
    · exact hOrderly
    · exact hAll t ht

end Declares

namespace Script

def outline (s : Script) : List (Option (String × Option Ty)) × List (Option String) :=
  (s.globals.map Global.outline, s.states.map (Option.map (·.name)))

/-- Scripts of one outline have variables, functions and states of the same names. -/
theorem outline_parts {s : Script} (h : t.outline = s.outline) :
    t.globalVars.map (fun v => (v.name, v.ty)) = s.globalVars.map (fun v => (v.name, v.ty)) ∧
      t.functions.map (·.name) = s.functions.map (·.name) ∧
      t.states.map (Option.map (·.name)) = s.states.map (Option.map (·.name)) := by
  obtain ⟨hGlobals, hStates⟩ := Prod.mk.inj h
  rw [globalVars_outline, globalVars_outline, functions_outline, functions_outline, hGlobals]
  exact ⟨rfl, rfl, hStates⟩

def labels (s : Script) : List Symbol := s.routines.flatMap Routine.labels

theorem outline_forget (k : Stage) (s : Script) : (s.forget k).outline = s.outline := by
  have hGlobal : ∀ g : Global, (g.forget k).outline = g.outline := fun g => by cases g <;> rfl
  simp [outline, forget, Function.comp_def, hGlobal, State.forget]

theorem outline_of_forget {k : Stage} {s : Script} (h : t.forget k = s.forget k) : t.outline = s.outline := by
  rw [← outline_forget k, h, outline_forget]

/-- What the declaration of names makes of the outline of a script in which it finds nothing. -/
theorem declare_outline {visible : List LibraryFunction} {round : Nat} {s : Script}
    (h : s.declare visible round = (t, [])) :
    t.outline = s.outline ∧ (∀ st, some st ∈ t.states → st.Orderly) ∧
      (t.labels.map (·.index)).Nodup := by
  have hRaw := declare_raw visible round s
  rw [h] at hRaw
  obtain ⟨globals, d₁, d₂, sts, d₃, hGlobals, hBefore, hDefault, hStates, hNone, rfl⟩ :=
    declare_parts h
  obtain ⟨hOrderly, hLast⟩ := Declares.states_outline hStates hNone
  have hNumbers := (Declares.globals_numbers hGlobals hBefore).trans
    ((Declares.report_numbers hDefault).trans hLast)
  exact ⟨outline_of_forget hRaw, hOrderly, hNumbers.distinct⟩

end Script

namespace Stmt

/-- Labels are noted when they are declared. -/
theorem labelsIn_forgetAll (ss : List Stmt) :
    labelsIn (notesAll (forgetAll .declared ss)) = labelsIn (notesAll ss) := by
  rw [forgetAll_eq fun s _ => s.forget_eq, notesAll_renote fun s _ => s.notes_renote, labelsIn, filterMap_map]
  refine filterMap_congr fun m _ => ?_
  cases m with
  | declares kind => cases kind <;> rfl
  | uses want => cases want <;> rfl

end Stmt

namespace Script

/-- What a later analysis leaves as it is: the names and types at the top level, the events of each state,
and the labels. -/
structure SameOutline (s t : Script) : Prop where
  outline : t.outline = s.outline
  heads : t.states.map (Option.map State.heads) = s.states.map (Option.map State.heads)
  labels : t.labels = s.labels

theorem SameOutline.orderly {s : Script} (h : SameOutline s t)
    (hs : ∀ st, some st ∈ s.states → st.Orderly) : ∀ st, some st ∈ t.states → st.Orderly := by
  intro st hst
  have hHeads : some st.heads ∈ s.states.map (Option.map State.heads) := by
    rw [← h.heads]
    exact List.mem_map.mpr ⟨some st, hst, rfl⟩
  obtain ⟨o, ho, hMap⟩ := List.mem_map.mp hHeads
  obtain ⟨st₀, rfl, hSame⟩ := Option.map_eq_some_iff.mp hMap
  obtain ⟨hKnown, hDistinct⟩ := hs st₀ ho
  rw [st₀.kinds_eq, hSame, ← st.kinds_eq] at hDistinct
  exact ⟨hSame ▸ hKnown, hDistinct⟩

theorem heads_forget (st : State) : (st.forget .declared).heads = st.heads := by
  simp [State.heads, State.forget, Handler.forget, Stage.bound, Function.comp_def]

theorem labels_forget (s : Script) : (s.forget .declared).labels = s.labels := by
  have hRoutine : ∀ (r : Routine) entry ps,
      Routine.labels ⟨r.result, entry, ps, r.body.map (·.forget .declared)⟩ = r.labels := by
    rintro ⟨result, entry, ps, b⟩ _ _
    cases b with
    | none => rfl
    | some b => exact Stmt.labelsIn_forgetAll b.stmts
  have hGlobal : ∀ g : Global, (g.forget .declared).routines.flatMap Routine.labels =
      g.routines.flatMap Routine.labels := by
    intro g
    cases g with
    | function f => exact congrArg (· ++ []) (hRoutine f.routine _ _)
    | _ => rfl
  have hHandler : ∀ h : Option Handler, (handlerRoutines (h.map (·.forget .declared))).flatMap
    Routine.labels =
      (handlerRoutines h).flatMap Routine.labels := by
    intro h
    cases h with
    | none => rfl
    | some h => exact congrArg (· ++ []) (hRoutine h.routine _ _)
  have hState : ∀ st : Option State, (stateRoutines (st.map (·.forget .declared))).flatMap Routine.labels =
      (stateRoutines st).flatMap Routine.labels := by
    intro st
    cases st with
    | none => rfl
    | some st =>
      simp only [Option.map_some, stateRoutines, State.forget, flatMap_assoc, flatMap_map, hHandler]
  simp only [labels, routines, forget, flatMap_append, flatMap_assoc, flatMap_map, hGlobal, hState]

/-- What does not change the notes of the declaration of names leaves the outline as it is. -/
theorem sameOutline_of_forget {s : Script} (h : t.forget .declared = s.forget .declared) :
    SameOutline s t where
  outline := outline_of_forget h
  heads := by
    have hHeads := congrArg (fun s : Script => s.states.map (Option.map State.heads)) h
    simpa [forget, Function.comp_def, heads_forget] using hHeads
  labels := by rw [← labels_forget, h, labels_forget]

end Script

namespace Session

variable {script : Script} {library : Library} {privileged : Bool} {s : Session}

theorem analyze_outline (h : (start script library privileged).analyze = .ok s)
    (hFailed : s.failed = false) : s.script.outline = script.outline ∧
      (∀ st, some st ∈ s.script.states → st.Orderly) ∧ (s.script.labels.map (·.index)).Nodup := by
  obtain ⟨s₁, s₂, s₃, cs, ds, hDeclare, hResolve, hCheck, _, _, rfl⟩ := analyze_steps h hFailed
  obtain ⟨hOutline, hOrderly, hLabels⟩ := Script.declare_outline hDeclare
  have hResolved := Script.sameOutline_of_forget (Script.resolve_keeps (by decide) hResolve)
  have hChecked := Script.sameOutline_of_forget (Script.check_keeps hCheck)
  refine ⟨hChecked.outline.trans (hResolved.outline.trans hOutline),
    hChecked.orderly (hResolved.orderly hOrderly), ?_⟩
  rw [hChecked.labels, hResolved.labels]
  exact hLabels

end Session
end Lsl
