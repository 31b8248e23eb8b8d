import Lsl.Proofs.LexicalScopes
import Lsl.Proofs.Outlines

/-! Scripts and the rules of scopes. Declaration finds nothing in a script exactly when the script is
complete, handles known events, starts with the default state and is well scoped. Its notes are then the
ones that the rules call for. -/
namespace Lsl

open List

variable {ps ps' : List Param} {pos : Pos} {ds : List Diagnostic} {h₀ h₁ : Handler} {index round : Nat}
  {visible : List LibraryFunction} {s s' : Script}

namespace Declares

open Declaring (Follows)

variable {d d' : Declaring}

theorem params_follows (h : ps.mapM param d = (ps', d')) :
    Follows d d' ⟨ps.map (·.name), (ps.map (·.name)).reverse, fun _ => True⟩
      ⟨ps'.filterMap (·.entry), (ps'.filterMap (·.entry)).reverse,
        fun _ => ∀ p ∈ ps', Denotes d.round p.name .local p.ty p.entry⟩ := by
  induction ps generalizing d ps' with
  | nil =>
    cases h
    exact Follows.still.congr rfl rfl (fun _ => Iff.rfl) rfl rfl (by simp)
  | cons p ps ih =>
    simp only [mapM_cons, param, state_bind_eq, state_pure_eq] at h
    obtain ⟨p', _, ⟨entry, _, hEntry, rfl, rfl⟩, ps', _, hps, rfl, rfl⟩ := h
    have hTail := ih hps
    rw [(declareLocal_walks hEntry).round] at hTail
    refine ((declareLocal_follows hEntry).trans hTail).congr rfl ?_ ?_ ?_ ?_ ?_
    · simp [Piece.andThen]
    · simp [Piece.andThen]
    · cases entry <;> simp [Piece.andThen]
    · cases entry <;> simp [Piece.andThen]
    · rintro env ⟨hHead, hRest⟩
      exact List.forall_mem_cons.mpr ⟨hHead, hRest⟩

theorem frame_follows {b b' : Block} (h : frame ps b d = ((ps', b'), d')) :
    Follows d d' (.uses fun env => b.complete = true ∧ b.WellScoped env ps)
      (.uses fun env => b'.Bound d.round env ps') := by
  obtain ⟨_, d₁, ss', d₂, rfl, hps, hss, rfl, rfl⟩ := frame_steps h
  have hStmts := stmts_follows (fun s _ => stmt_follows s) hss
  rw [(params_walks hps).round] at hStmts
  have hParams := (params_follows hps).recount
  refine (hParams.trans hStmts).enclosed.congr rfl rfl ?_ rfl rfl ?_
  · intro env
    simp only [Piece.uses, Piece.andThen, Block.complete, Block.WellScoped, true_and]
    exact and_left_comm
  · rintro env ⟨⟨hScope, hApart⟩, hDenotes, hBound⟩
    exact ⟨hDenotes, ⟨congrArg some hScope, hApart⟩, hBound⟩

end Declares

namespace Global

def symbols : Global → List Symbol
  | missing => []
  | var v => v.entry.toList
  | function f => f.entry.toList

def rule (g : Global) : Piece String where
  declared := g.declares
  vars := g.varNames
  fits env := g.complete = true ∧ g.WellScoped env

def noted (round : Nat) (g : Global) : Piece Symbol where
  declared := g.symbols
  vars := g.varSymbol?.toList
  fits := g.Bound round

theorem varNames_reverse (g : Global) : g.varNames.reverse = g.varNames := by
  cases g <;> rfl

end Global

namespace Declares

open Declaring (Follows)

variable {d d' : Declaring}

theorem declare_round {sym : Symbol} {entry : Option Symbol} (h : declare pos sym d = (entry, d')) :
    d'.round = d.round := by
  obtain ⟨inner, _, _, rfl⟩ | ⟨_, rfl⟩ := declare_cases h
  · rfl
  · rfl

/-- What is reported breaks the rules whatever follows. -/
theorem report_breaks {u : Unit} (hSome : ds ≠ []) (h : report ds d = (u, d')) :
    Follows d d' (.uses fun _ => False) (.uses fun _ => False) :=
  report_follows hSome (fun _ => id) h

/-- The declaration of a body, which must be there. -/
theorem framed_follows {problem : Diagnostic} {b b' : Option Block}
    (h : framed problem ps b d = ((ps', b'), d')) :
    Follows d d' (.uses fun env => b.any Block.complete = true ∧ ∀ c ∈ b, c.WellScoped env ps)
      (.uses fun env => ∀ c ∈ b', c.Bound d.round env ps') := by
  obtain ⟨hReport, rfl, rfl, rfl⟩ | ⟨c, c', hFrame, rfl, rfl⟩ := framed_cases h
  · refine (report_breaks (by simp) hReport).congr rfl rfl ?_ rfl rfl fun env hBound => hBound.elim
    simp [Piece.uses]
  · refine (frame_follows hFrame).congr rfl rfl ?_ rfl rfl ?_
    · simp [Piece.uses]
    · simp [Piece.uses]

/-- A declaration followed by the body it is for, which may mention it. -/
theorem function_follows {f f' : Function} (h : function f d = (f', d')) :
    Follows d d' (Global.function f).rule ((Global.function f').noted d.round) := by
  obtain ⟨entry, d₁, ps, b, hDeclare, hBody, rfl⟩ := function_steps h
  have hFollows := framed_follows hBody
  rw [declare_round hDeclare] at hFollows
  refine ((declare_follows hDeclare).recount.trans hFollows).congr rfl rfl ?_ ?_ rfl ?_
  · intro env
    simp [Global.rule, Global.complete, Global.WellScoped, Piece.andThen, Piece.uses, Symbol.isVariable]
  · simp [Global.noted, Global.symbols, Piece.andThen, Piece.uses]
  · rintro env ⟨_, hBound⟩
    simpa [Global.noted, Global.Bound, Piece.uses, Symbol.isVariable] using hBound

theorem globalVar_follows {v v' : GlobalVar} (h : globalVar v d = (v', d')) :
    Follows d d' (Global.var v).rule ((Global.var v').noted d.round) := by
  obtain ⟨init, d₁, entry, hInit, hDeclare, rfl⟩ := globalVar_steps h
  have hName := (declare_follows hDeclare).recount
  rw [(optional_walks hInit).round] at hName
  refine ((optional_follows hInit).trans hName).congr rfl rfl ?_ rfl ?_ ?_
  · intro env
    simp [Global.rule, Global.complete, Global.WellScoped, Piece.andThen, Piece.uses]
  · simp [Global.noted, Global.varSymbol?, Piece.andThen, Piece.uses, Symbol.isVariable]
  · rintro env ⟨hBound, hEntry⟩
    exact ⟨hBound, _, hEntry⟩

theorem global_follows {g g' : Global} (h : global pos g d = (g', d')) :
    Follows d d' g.rule (g'.noted d.round) := by
  obtain ⟨rfl, rfl, hReport⟩ | ⟨v, v', rfl, rfl, hVar⟩ | ⟨f, f', rfl, rfl, hFunction⟩ :=
    global_cases h
  · exact report_follows (by simp) (by simp [Global.rule, Global.complete]) hReport
  · exact globalVar_follows hVar
  · exact function_follows hFunction

theorem globals_follows {gs gs' : List Global} (h : gs.mapM (global pos) d = (gs', d')) :
    Follows d d' ⟨gs.flatMap Global.declares, (gs.flatMap Global.varNames).reverse,
        fun env => gs.all Global.complete = true ∧ Global.WellScopedAll env gs⟩
      ⟨gs'.flatMap Global.symbols, (gs'.filterMap Global.varSymbol?).reverse,
        fun env => Global.BoundAll d.round env gs'⟩ := by
  induction gs generalizing d gs' with
  | nil =>
    cases h
    refine Follows.still.congr rfl rfl ?_ rfl rfl fun env _ => trivial
    intro env
    simp [Global.WellScopedAll, Piece.uses]
  | cons g gs ih =>
    obtain ⟨g', d₁, gs', hg, hgs, rfl⟩ := state_mapM_cons.mp h
    have hTail := ih hgs
    rw [(global_goes hg).round] at hTail
    refine ((global_follows hg).trans hTail).congr rfl ?_ ?_ rfl ?_ fun env hBound => hBound
    · simp [Piece.andThen, Global.rule, Global.varNames_reverse]
    · intro env
      simp only [all_cons, Global.WellScopedAll, Piece.andThen, Global.rule, Bool.and_eq_true]
      exact and_and_and_comm
    · cases hVar : g'.varSymbol? <;> simp [Piece.andThen, Global.noted, hVar]

theorem knownHandler_follows {kind : EventKind} (h : knownHandler kind h₀ d = (h₁, d')) :
    Follows d d' ⟨[h₀.name], [], fun env => h₀.complete = true ∧ h₀.WellScoped env⟩
      ⟨h₁.entry.toList, [], h₁.Bound d.round⟩ := by
  obtain ⟨entry, d₁, ps, b, hDeclare, hBody, rfl⟩ := knownHandler_steps h
  have hFollows := framed_follows hBody
  rw [declare_round hDeclare] at hFollows
  refine ((declare_follows hDeclare).trans hFollows).congr rfl rfl ?_ ?_ rfl ?_
  · intro env
    simp [Handler.complete, Handler.WellScoped, Piece.andThen, Piece.uses, Symbol.isVariable]
  · simp [Piece.andThen, Piece.uses]
  · rintro env ⟨_, hBound⟩
    simpa [Handler.Bound, Piece.uses, Symbol.isVariable] using hBound

theorem handler_follows (h : handler h₀ d = (h₁, d')) :
    Follows d d' ⟨[h₀.name], [], fun env => h₀.complete = true ∧ h₀.Known ∧ h₀.WellScoped env⟩
      ⟨h₁.entry.toList, [], h₁.Bound d.round⟩ := by
  cases hKind : EventKind.ofName? h₀.name with
  | none =>
    simp only [handler, hKind, state_bind_eq, state_pure_eq] at h
    obtain ⟨_, _, hReport, rfl, rfl⟩ := h
    exact report_follows (by simp) (by simp [Handler.Known, hKind]) hReport
  | some kind =>
    simp only [handler, hKind] at h
    by_cases hTypes : paramTypes h₀.params = kind.params
    · simp only [hTypes, ne_eq, not_true_eq_false, if_false] at h
      refine (knownHandler_follows h).congr rfl rfl ?_ rfl rfl fun env hBound => hBound
      intro env
      simp [Handler.Known, hKind, hTypes]
    · simp only [hTypes, ne_eq, not_false_eq_true, if_true, state_bind_eq] at h
      obtain ⟨_, d₁, hReport, h⟩ := h
      have hMismatch := report_breaks (by simp) hReport
      refine (hMismatch.trans (knownHandler_follows h)).congr rfl rfl ?_ rfl rfl ?_
      · intro env
        simp [Handler.Known, hKind, hTypes, Piece.andThen, Piece.uses]
      · exact fun env hBound => hBound.1.elim

def eventFits (env : List String) (e : Option Handler) : Prop :=
  ∃ h, e = some h ∧ h.complete = true ∧ h.Known ∧ h.WellScoped env

theorem events_follows {st : State} {es es' : List (Option Handler)}
    (h : es.mapM (event st) d = (es', d')) :
    Follows d d' ⟨es.filterMap (Option.map (·.name)), [], fun env => ∀ e ∈ es, eventFits env e⟩
      ⟨es'.flatMap fun e => (e.bind (·.entry)).toList, [],
        fun env => ∀ h, some h ∈ es' → h.Bound d.round env⟩ := by
  induction es generalizing d es' with
  | nil =>
    cases h
    refine Follows.still.congr rfl rfl ?_ rfl rfl ?_
    · simp [Piece.uses]
    · simp
  | cons e es ih =>
    obtain ⟨e', d₁, es', he, hes, rfl⟩ := state_mapM_cons.mp h
    have hTail := ih hes
    rw [(@event_declared (fun _ => True) _ _ _ _ _ he (by simp)).keeps.round] at hTail
    cases e with
    | none =>
      simp only [event, state_bind_eq, state_pure_eq] at he
      obtain ⟨_, _, hReport, rfl, rfl⟩ := he
      have hMissing := report_breaks (by simp) hReport
      refine (hMissing.trans hTail).congr rfl rfl ?_ rfl rfl ?_
      · intro env
        simp [eventFits, Piece.andThen, Piece.uses]
      · exact fun env hBound => hBound.1.elim
    | some h₀ =>
      simp only [event, state_bind_eq, state_pure_eq] at he
      obtain ⟨h₁, _, hHandler, rfl, rfl⟩ := he
      refine ((handler_follows hHandler).trans hTail).congr rfl rfl ?_ rfl rfl ?_
      · intro env
        simp [eventFits, Piece.andThen]
      · rintro env ⟨hHead, hRest⟩
        simpa using ⟨hHead, hRest⟩

def stateFits (env : List String) (st : Option State) : Prop :=
  ∃ s, st = some s ∧ (∀ e ∈ s.events, eventFits env e) ∧ s.declares.Nodup

theorem state_follows {st st' : State} (h : state index st d = (st', d')) :
    Follows d d' ⟨[st.name], [], fun env => stateFits env (some st)⟩
      ⟨st'.entry.toList, [], st'.Bound d.round⟩ := by
  obtain ⟨entry, d₁, events, d₂, hDeclare, hEvents, rfl, rfl⟩ := state_steps h
  have hInside := (events_follows hEvents).enclosed
  refine ((declare_follows hDeclare).trans hInside).congr rfl rfl ?_ ?_ rfl ?_
  · intro env
    simp [stateFits, State.declares, Piece.andThen, Piece.uses, Symbol.isVariable, and_comm]
  · simp [Piece.andThen, Piece.uses]
  · rintro env ⟨_, _, hBound⟩
    rw [declare_round hDeclare] at hBound
    exact hBound

theorem states_follows {sts sts' : List (Option State)} (h : states pos index sts d = (sts', d')) :
    Follows d d' ⟨sts.filterMap (Option.map (·.name)), [], fun env => ∀ st ∈ sts, stateFits env st⟩
      ⟨sts'.flatMap fun st => (st.bind (·.entry)).toList, [],
        fun env => ∀ st, some st ∈ sts' → st.Bound d.round env⟩ := by
  induction sts generalizing index d sts' with
  | nil =>
    cases h
    refine Follows.still.congr rfl rfl ?_ rfl rfl ?_
    · simp [Piece.uses]
    · simp
  | cons st sts ih =>
    cases st with
    | none =>
      simp only [states, state_bind_eq, state_pure_eq] at h
      obtain ⟨_, d₁, hReport, sts', _, hsts, rfl, rfl⟩ := h
      have hMissing := report_breaks (by simp) hReport
      refine (hMissing.trans (ih hsts)).congr rfl rfl ?_ rfl rfl ?_
      · intro env
        simp [stateFits, Piece.andThen, Piece.uses]
      · exact fun env hBound => hBound.1.elim
    | some st =>
      simp only [states, state_bind_eq, state_pure_eq] at h
      obtain ⟨st', d₁, hst, sts', _, hsts, rfl, rfl⟩ := h
      have hTail := ih hsts
      have hRound := (@state_declared (fun _ => True) _ _ _ _ _ hst (by simp) (by simp)).1.round
      rw [hRound] at hTail
      refine ((state_follows hst).trans hTail).congr rfl rfl ?_ rfl rfl ?_
      · intro env
        simp [Piece.andThen]
      · rintro env ⟨hHead, hRest⟩
        simpa using ⟨hHead, hRest⟩

end Declares

/-- Something holds of all elements of a list of which none is missing. -/
theorem forall_present {α : Type} {os : List (Option α)} {q : α → Bool} {P : α → Prop} :
    (∀ o ∈ os, ∃ a, o = some a ∧ q a = true ∧ P a) ↔
      os.all (·.any q) = true ∧ ∀ a, some a ∈ os → P a := by
  simp only [all_eq_true, Option.any_eq_true]
  constructor
  · intro h
    constructor
    · intro o ho
      obtain ⟨a, rfl, hq, _⟩ := h o ho
      exact ⟨a, rfl, hq⟩
    · intro a ha
      obtain ⟨_, hEq, _, hP⟩ := h _ ha
      cases hEq
      exact hP
  · rintro ⟨hPresent, hP⟩ o ho
    obtain ⟨a, rfl, hq⟩ := hPresent o ho
    exact ⟨a, rfl, hq, hP a ho⟩

/-- The functions of the library are no variables. -/
theorem Scope.shows_library (visible : List LibraryFunction) :
    Shows [⟨visible.map (·.symbol)⟩] [] := by
  intro name
  cases hFind : lookupKind? [⟨visible.map (·.symbol)⟩] name .local with
  | none => rfl
  | some sym =>
    obtain ⟨hServes, sc, hsc, hMem⟩ := lookupKind?_mem hFind
    rw [List.mem_singleton.mp hsc] at hMem
    obtain ⟨f, _, rfl⟩ := List.mem_map.mp hMem
    simp [LibraryFunction.symbol, SymbolKind.serves] at hServes

namespace Script

/-- What the walk over a script asks for, as the rules say it. -/
theorem statesFit_iff {env : List String} {sts : List (Option State)} :
    (∀ st ∈ sts, Declares.stateFits env st) ↔
      sts.all (·.any State.complete) = true ∧
        ∀ st, some st ∈ sts → st.KnowsEvents ∧ st.WellScoped env := by
  rw [← forall_present]
  refine forall₂_congr fun st _ => exists_congr fun s => and_congr_right fun _ => ?_
  have hEvents := @forall_present _ s.events Handler.complete fun h => h.Known ∧ h.WellScoped env
  simp only [Declares.eventFits, hEvents, State.complete, State.KnowsEvents, State.WellScoped, forall_and]
  tauto

/-- Declaration finds nothing in a script exactly when it keeps the rules of scopes, once nothing is
missing from it, its events are known and it starts with the default state. -/
theorem declare_follows (h : s.declare visible round = (s', ds)) :
    (ds = [] ↔ (s.complete = true ∧ s.KnowsEvents ∧ Declares.startsDefault s.states = true) ∧
      s.WellScoped visible) ∧ (ds = [] → s'.Bound round) := by
  obtain ⟨d, hScript, rfl⟩ := declare_run h
  simp only [Declares.script, state_bind_eq, state_get_eq, state_pure_eq] at hScript
  obtain ⟨globals, d₁, hGlobals, _, d₂, hDefault, sts, d₃, hStates, _, _, ⟨rfl, rfl⟩, rfl,
    rfl⟩ := hScript
  have hFirst := Declares.globals_follows hGlobals
  have hSecond : Declaring.Follows d₁ d₂ (.uses fun _ => Declares.startsDefault s.states = true)
      (.uses fun _ => True) := by
    cases hDefault
    apply Declaring.Follows.uses
    · intro env _
      cases Declares.startsDefault s.states <;> simp
    · exact fun _ _ _ => trivial
  have hAll := (hFirst.trans hSecond).trans (Declares.states_follows hStates)
  have hLibrary : Scope.names ⟨visible.map (·.symbol)⟩ = visible.map (·.name) := by
    simp [Scope.names, LibraryFunction.symbol, Function.comp_def]
  constructor
  · rw [hAll.found rfl [] (Scope.shows_library visible), hLibrary]
    simp only [Piece.andThen, Piece.uses, nil_append, append_nil, map_nil, statesFit_iff,
      WellScoped, declares, varNames, complete, KnowsEvents, Bool.and_eq_true, imp_and, forall_and]
    tauto
  · intro hNone
    have hBefore := (Declares.states_follows hStates).before hNone
    have hRound : d₂.round = round := ((hFirst.trans hSecond).records hBefore).round
    have hShows := (hAll.records hNone).shows [] (Scope.shows_library visible)
    obtain ⟨⟨hGlobals, _⟩, hStates⟩ := hShows.2
    simp only [hRound, Piece.andThen, Piece.uses, nil_append, append_nil] at hStates
    exact ⟨hGlobals, hStates⟩

/-- The variables of a script are told apart by their symbols: those of a frame by their numbers in it,
and the globals by theirs. -/
def Numbers (round : Nat) (s : Script) : Prop :=
  GlobalVar.NumberedFrom round 0 s.globalVars ∧
    ∀ r ∈ s.routines, ∀ b ∈ r.body, Numbered (paramNotes r.params ++ Stmt.notesAll b.stmts)

theorem declare_numbers (h : s.declare visible round = (s', [])) : s'.Numbers round := by
  constructor
  · obtain ⟨globals, d₁, _, _, _, hGlobals, hNone, _, _, _, rfl⟩ := declare_parts h
    exact (Declares.globals_numbered hGlobals hNone).1
  · intro r hr b hb
    obtain ⟨r₀, _, hRoutine⟩ := exists_of_mem_right ((declare_declared h).2 rfl).routines hr
    obtain ⟨_, b', _, _, _, _, hBody, _, _, _, _, _, hNumbered, _⟩ := hRoutine.body
    rw [Option.mem_def, hBody] at hb
    cases hb
    exact hNumbered

/-- Declaration is lexical scoping. It finds an error in a script unless nothing is missing from it, its
events are known, it starts with the default state and it is well scoped. Otherwise it changes nothing
but notes: each variable is bound to the nearest one of its name declared before, whatever else has that
name in nearer scopes, and no two variables in sight have the same symbol. -/
theorem declare_lexical (visible : List LibraryFunction) (round : Nat) (s : Script) :
    (Diagnostic.failed (s.declare visible round).2 = false ↔
      (s.complete = true ∧ s.KnowsEvents ∧ Declares.startsDefault s.states = true) ∧
        s.WellScoped visible) ∧
    (Diagnostic.failed (s.declare visible round).2 = false →
      (s.declare visible round).1.forget .raw = s.forget .raw ∧
        (s.declare visible round).1.Bound round ∧ (s.declare visible round).1.Numbers round) := by
  have hRaw := declare_raw visible round s
  cases hRun : s.declare visible round with
  | mk s' ds =>
    rw [hRun] at hRaw
    have hNothing : Diagnostic.failed ds = false ↔ ds = [] :=
      ⟨Session.eq_nil_of_not_failed (declare_declared hRun).1, fun h => by simp [h, Diagnostic.failed]⟩
    obtain ⟨hRules, hBound⟩ := declare_follows hRun
    simp only [hNothing]
    refine ⟨hRules, ?_⟩
    rintro rfl
    exact ⟨hRaw, hBound rfl, declare_numbers hRun⟩

end Script
end Lsl
