import Lsl.Proofs.LabelScopes
import Lsl.Proofs.Numbered

/-! The bodies of a script through its analyses. Each analysis takes the bodies of functions and
handlers one by one, so what it does to a script is a relation between their lists before and
after. -/
namespace Lsl

open List

variable {notes : List Note} {scopes : List Scope} {f' : Function} {h₀ h₁ : Handler} {result : Ty}
  {st : State} {es es' : List (Option Handler)} {index : Nat} {sts sts' : List (Option State)}
  {rest : List Global} {body body' : Option Block} {s' : Script} {ds : List Diagnostic} {g g' : Global}

variable {visible : List LibraryFunction} {round : Nat} {s : Script} {v v' : GlobalVar} {α : Type}
  {cs cs' : Constants} {pos : Pos} {f : Function} {gs gs' : List Global}

/-- What a function and a handler have in common: a frame of parameters and a body. -/
structure Routine where
  result : Ty
  entry : Option Symbol
  params : List Param
  body : Option Block

def Function.routine (f : Function) : Routine := ⟨f.result, f.entry, f.params, f.body⟩

def Handler.routine (h : Handler) : Routine := ⟨.void, h.entry, h.params, h.body⟩

def Global.var? : Global → Option GlobalVar
  | .var v => some v
  | _ => none

def Global.function? : Global → Option Function
  | .function f => some f
  | _ => none

def Global.routines : Global → List Routine
  | .function f => [f.routine]
  | _ => []

def handlerRoutines (h : Option Handler) : List Routine := (h.map (·.routine)).toList

def stateRoutines : Option State → List Routine
  | some s => s.events.flatMap handlerRoutines
  | none => []

namespace Script

/-- The routines of a script: its functions, then the handlers of its states. -/
def routines (s : Script) : List Routine :=
  s.globals.flatMap Global.routines ++ s.states.flatMap stateRoutines

/-- The symbols that a script declares at its top level in a round, or takes from the library. Variables,
functions and states are numbered in the order of the script. -/
inductive Offers (visible : List LibraryFunction) (round : Nat) (s : Script) : Symbol → Prop where
  | library (f : LibraryFunction) (hMem : f ∈ visible) : Offers visible round s f.symbol
  | globalVar (i : Nat) (v : GlobalVar) (hMem : s.globalVars[i]? = some v) :
      Offers visible round s { name := v.name, kind := .global, ty := v.ty, index := i, round }
  | function (i : Nat) (f : Function) (hMem : s.functions[i]? = some f) :
      Offers visible round s { name := f.name, kind := .function, ty := f.result
                               params := some (paramTypes f.params), index := i, round }
  | state (i : Nat) (t : State) (hMem : s.states[i]? = some (some t)) :
      Offers visible round s { name := t.name, kind := .state, ty := .void, index := i, round }
  | event (sym : Symbol) (hKind : sym.kind = .event) : Offers visible round s sym

/-- No label is offered at the top level. -/
theorem Offers.kind_ne_label {sym : Symbol} (h : s.Offers visible round sym) : sym.kind ≠ .label := by
  cases h with
  | event sym hKind => simp [hKind]
  | _ => simp [LibraryFunction.symbol]

end Script

namespace Declaring

/-- What a step at the top level of a script does to the open scopes, where `Top` is what is known of
all symbols there. -/
structure Keeps (Top : Symbol → Prop) (d d' : Declaring) : Prop where
  outer : d'.outer = d.outer
  round : d'.round = d.round
  found : Reports d d'
  inner : d.inner.All Top → d'.inner.All Top

variable {Top : Symbol → Prop} {d d' d'' : Declaring}

theorem Keeps.refl (Top : Symbol → Prop) (d : Declaring) : Keeps Top d d :=
  ⟨rfl, rfl, ⟨[], by simp⟩, id⟩

theorem Keeps.trans (h : Keeps Top d d') (h' : Keeps Top d' d'') : Keeps Top d d'' where
  outer := h'.outer.trans h.outer
  round := h'.round.trans h.round
  found := h.found.trans h'.found
  inner := fun hInner => h'.inner (h.inner hInner)

theorem Keeps.diagnostics_eq_nil (h : Keeps Top d d') (hNone : d'.diagnostics = []) :
    d.diagnostics = [] :=
  h.found.eq_nil hNone

theorem Keeps.chain (h : Keeps Top d d') (hChain : ∀ sc ∈ d.chain, sc.All Top) :
    ∀ sc ∈ d'.chain, sc.All Top := by
  simp only [Declaring.chain, mem_cons, forall_eq_or_imp] at hChain ⊢
  rw [h.outer]
  exact ⟨h.inner hChain.1, hChain.2⟩

theorem Walks.keeps (h : Walks d d' notes scopes) (hTop : ∀ s ∈ declaredIn notes, Top s) :
    Keeps Top d d' where
  outer := h.outer
  round := h.round
  found := h.found
  inner := by
    intro hInner s hs
    obtain ⟨new, hNew, hDeclared⟩ := h.inner
    rw [hNew, mem_append] at hs
    rcases hs with hs | hs
    · exact hInner s hs
    · exact hTop s (hDeclared s hs)

theorem Walks.keeps_inner (h : Walks d d' notes scopes) (hInner : d'.inner = d.inner) : Keeps Top d d' :=
  ⟨h.outer, h.round, h.found, fun hAll => hInner ▸ hAll⟩

/-- A step that keeps the scopes, after which `P` holds if nothing was found and the scopes were as expected.
-/
structure Settles (Top : Symbol → Prop) (d d' : Declaring) (P : Prop) : Prop where
  keeps : Keeps Top d d'
  holds : d'.diagnostics = [] → (∀ sc ∈ d.chain, sc.All Top) → P

section

variable {P Q : Prop}

theorem Keeps.settles (h : Keeps Top d d') (hP : P) : Settles Top d d' P := ⟨h, fun _ _ => hP⟩

theorem Settles.imp (h : Settles Top d d' P) (hImp : P → Q) : Settles Top d d' Q :=
  ⟨h.keeps, fun hNone hChain => hImp (h.holds hNone hChain)⟩

theorem Settles.trans (h : Settles Top d d' P) (h' : Settles Top d' d'' Q) : Settles Top d d'' (P ∧ Q) :=
  ⟨h.keeps.trans h'.keeps, fun hNone hChain =>
    ⟨h.holds (h'.keeps.diagnostics_eq_nil hNone) hChain, h'.holds hNone (h.keeps.chain hChain)⟩⟩

theorem Keeps.andThen (h : Keeps Top d d') (h' : Settles Top d' d'' P) : Settles Top d d'' P :=
  ((h.settles trivial).trans h').imp And.right

end

/-- Steps inside a scope of their own leave the scopes around it as they were. -/
theorem Keeps.bracket (h : Keeps Top { d with inner := ⟨[]⟩, outer := d.chain } d') :
    Keeps Top d { d' with inner := d'.outer.headD ⟨[]⟩, outer := d'.outer.tail } where
  outer := by simp [h.outer, Declaring.chain]
  round := h.round
  found := h.found
  inner := by simp [h.outer, Declaring.chain]

end Declaring

/-- What the declaration of names makes of a routine in which nothing is found. -/
structure Routine.Declared (Top : Symbol → Prop) (round : Nat) (r r' : Routine) : Prop where
  result : r'.result = r.result
  params : paramTypes r'.params = paramTypes r.params
  entry : ∃ s, r'.entry = some s ∧ s.round = round
  body : ∃ b b' sc d d', r.body = some b ∧ r'.body = some b' ∧ b'.scope = some sc ∧
    Stmt.localsAll b'.stmts = Stmt.localsAll b.stmts ∧ d'.diagnostics = [] ∧ d.round = round ∧
    (∀ sc ∈ d.chain, sc.All Top) ∧
    Numbered (paramNotes r'.params ++ Stmt.notesAll b'.stmts) ∧
    (Stmt.block b'.pos b'.scope b'.stmts).Framed ∧
    Declaring.Walks d d' (paramNotes r'.params ++ Stmt.notesAll b'.stmts)
      (sc :: Stmt.scopesAll b'.stmts)

namespace Declares

open Declaring (Walks Keeps Settles)

variable {Top : Symbol → Prop} {d d' : Declaring}

theorem report_keeps {u : Unit} (hErrors : ∀ x ∈ ds, x.isError = true) (h : report ds d = (u, d')) :
    Keeps Top d d' :=
  (report_walks hErrors h).keeps (by simp [declaredIn])

/-- A declaration adds its symbol to the open scope. -/
theorem declare_keeps {pos : Pos} {sym : Symbol} {entry : Option Symbol}
    (h : declare pos sym d = (entry, d')) (hTop : Top { sym with round := d.round }) :
    Keeps Top d d' ∧ (d'.diagnostics = [] → entry = some { sym with round := d.round }) := by
  obtain ⟨inner, hDeclare, rfl, rfl⟩ | ⟨rfl, rfl⟩ := declare_cases h
  · refine ⟨⟨rfl, rfl, ⟨[], by simp⟩, fun hInner s hs => ?_⟩, fun _ => rfl⟩
    unfold Scope.declare? at hDeclare
    split at hDeclare
    · cases hDeclare
    · cases hDeclare
      rcases List.mem_append.mp hs with hs | hs
      · exact hInner s hs
      · rw [List.mem_singleton.mp hs]
        exact hTop
  · exact ⟨⟨rfl, rfl, ⟨_, rfl, by simp [Diagnostic.isError]⟩, id⟩, by simp⟩

/-- What is reported is found. -/
theorem report_settles {problem : Diagnostic} {u : Unit} {P : Prop} (hError : problem.isError = true)
    (h : report [problem] d = (u, d')) : Settles Top d d' P := by
  refine ⟨report_keeps (by simpa using hError) h, fun hNone => ?_⟩
  cases h
  simp at hNone

def framed (problem : Diagnostic) (ps : List Param) : Option Block → Declares (List Param × Option Block)
  | none => do
    report [problem]
    return (ps, none)
  | some b => do
    let (ps, b) ← frame ps b
    return (ps, some b)

theorem function_steps (h : function f d = (f', d')) : ∃ entry d₁ ps b,
    declare f.pos { name := f.name, kind := .function, ty := f.result, params := some (paramTypes f.params)
                    index := d.functions } { d with functions := d.functions + 1 } = (entry, d₁) ∧
      framed (malformed f.pos s!"function {f.name} has no body") f.params f.body d₁ = ((ps, b), d') ∧
      f' = { f with entry, params := ps, body := b } := by
  obtain ⟨pos, result, name, params, body, entry⟩ := f
  cases body with
  | none | some b =>
    cases h
    exact ⟨_, _, _, _, rfl, rfl, rfl⟩

theorem knownHandler_steps {kind : EventKind} (h : knownHandler kind h₀ d = (h₁, d')) :
    ∃ entry d₁ ps b,
    declare h₀.pos { name := h₀.name, kind := .event, ty := .void, params := some (paramTypes h₀.params)
                     index := kind.code.toNat } d = (entry, d₁) ∧
      framed (malformed h₀.pos s!"event {h₀.name} has no body") h₀.params h₀.body d₁ =
        ((ps, b), d') ∧
      h₁ = { h₀ with kind, entry, params := ps, body := b } := by
  obtain ⟨pos, name, params, body, entry⟩ := h₀
  cases body with
  | none | some b =>
    cases h
    exact ⟨_, _, _, _, rfl, rfl, rfl⟩

section

variable {message : String} {ps ps' : List Param} {b b' : Option Block}

theorem framed_cases {problem : Diagnostic} (h : framed problem ps b d = ((ps', b'), d')) :
    (report [problem] d = ((), d') ∧ b = none ∧ ps' = ps ∧ b' = none) ∨
      ∃ c c', frame ps c d = ((ps', c'), d') ∧ b = some c ∧ b' = some c' := by
  cases b with
  | none =>
    cases h
    exact .inl ⟨rfl, rfl, rfl, rfl⟩
  | some c =>
    cases h
    exact .inr ⟨c, _, rfl, rfl, rfl⟩

/-- The declaration of a routine's frame, once its own name is declared. -/
theorem framed_declared {entry entry' : Option Symbol}
    (h : framed (malformed pos message) ps b d = ((ps', b'), d')) (hRound : d.round = round)
    (hEntry : d.diagnostics = [] → ∃ s, entry' = some s ∧ s.round = round) :
    Settles Top d d' (Routine.Declared Top round ⟨result, entry, ps, b⟩
      ⟨result, entry', ps', b'⟩) := by
  obtain ⟨hReport, rfl, rfl, rfl⟩ | ⟨c, c', hFrame, rfl, rfl⟩ := framed_cases h
  · exact report_settles rfl hReport
  · obtain ⟨hInner, hTypes, hLocals, sc, hScope, hWalk⟩ := frame_walks hFrame
    refine ⟨hWalk.keeps_inner hInner, fun hNone hChain => ?_⟩
    exact ⟨rfl, hTypes, hEntry (hWalk.diagnostics_eq_nil hNone), c, c', sc, d, _, rfl, rfl, hScope,
      hLocals, hNone, hRound, hChain, (frame_counts hFrame).2.2, frame_framed hFrame, hWalk⟩

end

def CoversGlobal (Top : Symbol → Prop) (d : Declaring) : Global → Prop
  | .missing => True
  | .var v =>
    Top { name := v.name, kind := .global, ty := v.ty, index := d.globals, round := d.round }
  | .function f =>
    Top { name := f.name, kind := .function, ty := f.result, params := some (paramTypes f.params)
          index := d.functions, round := d.round }

theorem function_declared (h : function f d = (f', d')) (hTop : CoversGlobal Top d (.function f)) :
    Settles Top d d' (Routine.Declared Top d.round f.routine f'.routine) := by
  obtain ⟨entry, d₁, ps, b, hDeclare, hBody, rfl⟩ := function_steps h
  obtain ⟨hKeeps, hEntry⟩ := declare_keeps hDeclare hTop
  have hFirst : Keeps Top d d₁ := ⟨hKeeps.outer, hKeeps.round, hKeeps.found, hKeeps.inner⟩
  exact hFirst.andThen (framed_declared hBody hFirst.round fun hNone => ⟨_, hEntry hNone, rfl⟩)

theorem globalVar_steps (h : globalVar v d = (v', d')) :
    ∃ init d₁ entry, optional v.init d = (init, d₁) ∧
    declare v.pos { name := v.name, kind := .global, ty := v.ty, index := d₁.globals }
      { d₁ with globals := d₁.globals + 1 } = (entry, d') ∧ v' = { v with init, entry } := by
  cases h
  exact ⟨_, _, _, rfl, rfl, rfl⟩

theorem globalVar_keeps (h : globalVar v d = (v', d')) (hTop : CoversGlobal Top d (.var v)) :
    Keeps Top d d' := by
  obtain ⟨init, d₁, entry, hInit, hDeclare, _⟩ := globalVar_steps h
  have hFirst : Keeps Top d d₁ := by
    refine (optional_walks hInit).keeps fun s hs => ?_
    obtain ⟨_, _, hMem⟩ := mem_declaredIn.mp hs
    exact absurd hMem (Expr.not_declares_mem_notes _)
  cases hInit
  obtain ⟨hKeeps, _⟩ := declare_keeps hDeclare hTop
  exact hFirst.trans ⟨hKeeps.outer, hKeeps.round, hKeeps.found, hKeeps.inner⟩

theorem global_cases (h : global pos g d = (g', d')) :
    (g = .missing ∧ g' = .missing ∧ report [malformed pos "unexpected global <nil>"] d = ((), d')) ∨
      (∃ v v', g = .var v ∧ g' = .var v' ∧ globalVar v d = (v', d')) ∨
        ∃ f f', g = .function f ∧ g' = .function f' ∧ function f d = (f', d') := by
  cases g with
  | missing =>
    cases h
    exact .inl ⟨rfl, rfl, rfl⟩
  | var v =>
    cases h
    exact .inr (.inl ⟨v, _, rfl, rfl, rfl⟩)
  | function f =>
    cases h
    exact .inr (.inr ⟨f, _, rfl, rfl, rfl⟩)

theorem global_declared (h : global pos g d = (g', d')) (hTop : CoversGlobal Top d g) :
    Settles Top d d' (Forall₂ (Routine.Declared Top d.round) g.routines g'.routines) := by
  obtain ⟨rfl, rfl, hReport⟩ | ⟨v, v', rfl, rfl, hVar⟩ | ⟨f, f', rfl, rfl, hFunction⟩ :=
    global_cases h
  · exact report_settles rfl hReport
  · exact (globalVar_keeps hVar hTop).settles .nil
  · exact (function_declared hFunction hTop).imp fun hDeclared => .cons hDeclared .nil

/-- A declaration at the top level takes the next number of its kind. -/
theorem global_counts (h : global pos g d = (g', d')) :
    d'.globals = d.globals + g.var?.toList.length ∧
      d'.functions = d.functions + g.function?.toList.length := by
  obtain ⟨rfl, rfl, hReport⟩ | ⟨v, v', rfl, rfl, hVar⟩ | ⟨f, f', rfl, rfl, hFunction⟩ :=
    global_cases h
  · cases hReport
    exact ⟨rfl, rfl⟩
  · obtain ⟨init, d₁, entry, hInit, hDeclare, _⟩ := globalVar_steps hVar
    cases hInit
    obtain ⟨inner, _, _, rfl⟩ | ⟨_, rfl⟩ := declare_cases hDeclare
    · exact ⟨rfl, rfl⟩
    · exact ⟨rfl, rfl⟩
  · obtain ⟨entry, d₁, ps, b, hDeclare, hBody, _⟩ := function_steps hFunction
    have hFirst : d₁.globals = d.globals ∧ d₁.functions = d.functions + 1 := by
      obtain ⟨inner, _, _, rfl⟩ | ⟨_, rfl⟩ := declare_cases hDeclare
      · exact ⟨rfl, rfl⟩
      · exact ⟨rfl, rfl⟩
    obtain ⟨hReport, _⟩ | ⟨c, c', hFrame, _⟩ := framed_cases hBody
    · cases hReport
      exact hFirst
    · obtain ⟨hGlobals, hFunctions, _⟩ := frame_counts hFrame
      exact ⟨hGlobals.trans hFirst.1, hFunctions.trans hFirst.2⟩

/-- Steps over a list, each of which keeps the scopes and declares the routines of its element. What a
step relies on may depend on the elements before it, as long as it is kept. -/
theorem mapM_declared {α : Type} {step : α → Declares α} {routines : α → List Routine}
    {as as' : List α}
    {Ready : List α → Declaring → Prop}
    (hStep : ∀ a as d a' d', Ready (a :: as) d → step a d = (a', d') → Ready as d' ∧
      Settles Top d d' (Forall₂ (Routine.Declared Top d.round) (routines a) (routines a')))
    (hReady : Ready as d) (h : as.mapM step d = (as', d')) : Settles Top d d'
      (Forall₂ (Routine.Declared Top d.round) (as.flatMap routines) (as'.flatMap routines)) := by
  induction as generalizing d as' with
  | nil =>
    cases h
    exact (Keeps.refl _ _).settles .nil
  | cons a as ih =>
    obtain ⟨a', d₁, as', ha, has, rfl⟩ := state_mapM_cons.mp h
    obtain ⟨hNext, hFirst⟩ := hStep _ _ _ _ _ hReady ha
    have hTail := ih hNext has
    rw [hFirst.keeps.round] at hTail
    exact (hFirst.trans hTail).imp fun hBoth => rel_append hBoth.1 hBoth.2

theorem knownHandler_declared {kind : EventKind} {h₀ h₁ : Handler}
    (h : knownHandler kind h₀ d = (h₁, d')) (hTop : ∀ s : Symbol, s.kind = .event → Top s) :
    Settles Top d d' (Routine.Declared Top d.round h₀.routine h₁.routine) := by
  obtain ⟨entry, d₁, ps, b, hDeclare, hBody, rfl⟩ := knownHandler_steps h
  obtain ⟨hFirst, hEntry⟩ := declare_keeps hDeclare (hTop _ rfl)
  exact hFirst.andThen (framed_declared hBody hFirst.round fun hNone => ⟨_, hEntry hNone, rfl⟩)

theorem handler_declared (h : handler h₀ d = (h₁, d')) (hTop : ∀ s : Symbol, s.kind = .event →
    Top s) :
    Settles Top d d' (Routine.Declared Top d.round h₀.routine h₁.routine) := by
  cases hKind : EventKind.ofName? h₀.name with
  | none =>
    simp only [handler, hKind, state_bind_eq, state_pure_eq] at h
    obtain ⟨_, _, hReport, _, rfl⟩ := h
    exact report_settles rfl hReport
  | some kind =>
    simp only [handler, hKind] at h
    by_cases hTypes : paramTypes h₀.params = kind.params
    · simp only [hTypes, ne_eq, not_true_eq_false, if_false] at h
      exact knownHandler_declared h hTop
    · simp only [hTypes, ne_eq, not_false_eq_true, if_true, state_bind_eq] at h
      obtain ⟨_, d₁, hReport, h⟩ := h
      have hFirst : Keeps Top d d₁ := report_keeps (by simp [Diagnostic.isError]) hReport
      rw [← hFirst.round]
      exact hFirst.andThen (knownHandler_declared h hTop)

def event (st : State) : Option Handler → Declares (Option Handler)
  | none => do
    report [malformed st.pos s!"nil event in state {st.name}"]
    return none
  | some h => do return some (← handler h)

theorem event_declared {st : State} {e e' : Option Handler} (h : event st e d = (e', d'))
    (hTop : ∀ s : Symbol, s.kind = .event → Top s) :
    Settles Top d d' (Forall₂ (Routine.Declared Top d.round) (handlerRoutines e) (handlerRoutines e')) := by
  cases e with
  | none =>
    simp only [event, state_bind_eq, state_pure_eq] at h
    obtain ⟨_, _, hReport, rfl, rfl⟩ := h
    exact report_settles rfl hReport
  | some h₀ =>
    simp only [event, state_bind_eq, state_pure_eq] at h
    obtain ⟨h₁, _, hHandler, rfl, rfl⟩ := h
    exact (handler_declared hHandler hTop).imp fun hDeclared => .cons hDeclared .nil

theorem events_declared (h : es.mapM (event st) d = (es', d'))
    (hTop : ∀ s : Symbol, s.kind = .event → Top s) : Settles Top d d'
      (Forall₂ (Routine.Declared Top d.round) (es.flatMap handlerRoutines) (es'.flatMap handlerRoutines)) :=
  @mapM_declared Top _ _ _ _ handlerRoutines _ _ (fun _ _ => True)
    (fun _ _ _ _ _ _ hStep => ⟨trivial, event_declared hStep hTop⟩) trivial h

theorem state_steps {st' : State} (h : state index st d = (st', d')) : ∃ entry d₁ events d₂,
    declare st.pos { name := st.name, kind := .state, ty := .void, index } d = (entry, d₁) ∧
      st.events.mapM (event st) { d₁ with inner := ⟨[]⟩, outer := d₁.chain } = (events, d₂) ∧
      st' = { st with entry, events, scope := some d₂.inner } ∧
      d' = { d₂ with inner := d₂.outer.headD ⟨[]⟩, outer := d₂.outer.tail } := by
  cases h
  exact ⟨_, _, _, _, rfl, rfl, rfl, rfl⟩

theorem state_declared {index : Nat} {st st' : State} (h : state index st d = (st', d'))
    (hState : Top { name := st.name, kind := .state, ty := .void, index, round := d.round })
    (hTop : ∀ s : Symbol, s.kind = .event → Top s) :
    Settles Top d d' (Forall₂ (Routine.Declared Top d.round) (stateRoutines (some st))
      (stateRoutines (some st')) ∧ ∀ sc ∈ st'.scope.toList, sc.All Top) := by
  obtain ⟨entry, d₁, events, d₂, hDeclare, hEvents, rfl, rfl⟩ := state_steps h
  obtain ⟨hFirst, _⟩ := declare_keeps hDeclare hState
  obtain ⟨hInside, hDeclared⟩ := events_declared hEvents hTop
  refine hFirst.andThen ⟨hInside.bracket, fun hNone hOpen => ⟨?_, ?_⟩⟩
  · rw [← hFirst.round]
    refine hDeclared hNone ?_
    simp only [Declaring.chain, mem_cons, forall_eq_or_imp] at hOpen ⊢
    exact ⟨by simp [Scope.All], hOpen⟩
  · simpa using hInside.inner (by simp [Scope.All])

theorem states_declared {pos : Pos} {index : Nat} {sts sts' : List (Option State)}
    (h : states pos index sts d = (sts', d'))
    (hStates : ∀ i t, sts[i]? = some (some t) →
      Top { name := t.name, kind := .state, ty := .void, index := index + i, round := d.round })
    (hTop : ∀ s : Symbol, s.kind = .event → Top s) :
    Settles Top d d' (Forall₂ (Routine.Declared Top d.round) (sts.flatMap stateRoutines)
        (sts'.flatMap stateRoutines) ∧
      ∀ st, some st ∈ sts' → ∀ sc ∈ st.scope.toList, sc.All Top) := by
  induction sts generalizing index d sts' with
  | nil =>
    cases h
    exact (Keeps.refl _ _).settles ⟨.nil, by simp⟩
  | cons st sts ih =>
    have hLater : ∀ {d₁}, Keeps Top d d₁ → ∀ i t, sts[i]? = some (some t) → Top
        { name := t.name, kind := .state, ty := .void, index := index + 1 + i, round := d₁.round } := by
      intro d₁ hKeeps i t hi
      have hNext := hStates (i + 1) t hi
      rwa [← Nat.add_assoc, Nat.add_right_comm, ← hKeeps.round] at hNext
    cases st with
    | none =>
      simp only [states, state_bind_eq, state_pure_eq] at h
      obtain ⟨_, d₁, hReport, sts', _, hsts, rfl, rfl⟩ := h
      have hFirst := @report_settles Top _ _ _ _ False rfl hReport
      exact (hFirst.trans (ih hsts (hLater hFirst.keeps))).imp fun hBoth => hBoth.1.elim
    | some st =>
      simp only [states, state_bind_eq, state_pure_eq] at h
      obtain ⟨st', d₁, hst, sts', _, hsts, rfl, rfl⟩ := h
      have hFirst := state_declared hst (hStates 0 st rfl) hTop
      have hTail := ih hsts (hLater hFirst.keeps)
      rw [hFirst.keeps.round] at hTail
      refine (hFirst.trans hTail).imp ?_
      rintro ⟨⟨hRoutines, hScope⟩, hMore, hScopes⟩
      refine ⟨rel_append hRoutines hMore, fun st hMem => ?_⟩
      rcases List.mem_cons.mp hMem with hEq | hMem
      · cases hEq
        exact hScope
      · exact hScopes st hMem

theorem global_goes (h : global pos g d = (g', d')) : Keeps (fun _ => True) d d' :=
  (global_declared h (by cases g <;> trivial)).1

theorem globals_keep (h : gs.mapM (global pos) d = (gs', d')) : Keeps (fun _ => True) d d' :=
  (@mapM_declared (fun _ => True) _ _ _ _ Global.routines _ _ (fun _ _ => True)
    (fun g _ _ _ _ _ hGlobal => ⟨trivial, global_declared hGlobal (by cases g <;> trivial)⟩) trivial h).1

theorem events_keep (h : es.mapM (event st) d = (es', d')) :
    Keeps (fun _ => True) d d' :=
  (events_declared h (by simp)).1

theorem states_keep (h : states pos index sts d = (sts', d')) : Keeps (fun _ => True) d d' :=
  (states_declared h (by simp) (by simp)).1

/-- Where nothing is found, no state is missing. -/
theorem states_cons {st : Option State} (h : states pos index (st :: sts) d = (sts', d'))
    (hNone : d'.diagnostics = []) : ∃ t t' d₁ ts,
      state index t d = (t', d₁) ∧ d₁.diagnostics = [] ∧
        states pos (index + 1) sts d₁ = (ts, d') ∧
      sts' = some t' :: ts := by
  cases st with
  | none =>
    simp only [states, state_bind_eq, state_pure_eq] at h
    obtain ⟨_, d₁, hReport, _, _, hsts, _, rfl⟩ := h
    cases hReport
    simpa using (states_keep hsts).diagnostics_eq_nil hNone
  | some t =>
    simp only [states, state_bind_eq, state_pure_eq] at h
    obtain ⟨t', d₁, ht, ts, _, hts, rfl, rfl⟩ := h
    exact ⟨t, t', d₁, ts, ht, (states_keep hts).diagnostics_eq_nil hNone, hts, rfl⟩

end Declares

/-- What the declaration of names makes of a script in which nothing is found. -/
structure Script.Declared (Top : Symbol → Prop) (round : Nat) (s s' : Script) : Prop where
  scope : ∀ sc ∈ s'.scope.toList, sc.All Top
  states : ∀ st, some st ∈ s'.states → ∀ sc ∈ st.scope.toList, sc.All Top
  routines : Forall₂ (Routine.Declared Top round) s.routines s'.routines

theorem Script.mem_functions : f ∈ s.functions ↔ .function f ∈ s.globals := by
  simp only [Script.functions, mem_filterMap]
  constructor
  · rintro ⟨g, hg, h⟩
    cases g <;> cases h
    exact hg
  · exact fun h => ⟨_, h, rfl⟩

theorem Script.mem_globalVars : v ∈ s.globalVars ↔ .var v ∈ s.globals := by
  simp only [Script.globalVars, mem_filterMap]
  constructor
  · rintro ⟨g, hg, h⟩
    cases g <;> cases h
    exact hg
  · exact fun h => ⟨_, h, rfl⟩

/-- The walk has come to the given rest of a script's declarations, and has counted those before. -/
def Script.Reaches (round : Nat) (s : Script) (rest : List Global) (d : Declaring) : Prop :=
  d.round = round ∧ ∃ front, s.globals = front ++ rest ∧
    d.globals = (front.filterMap Global.var?).length ∧
    d.functions = (front.filterMap Global.function?).length

/-- The next declaration makes a symbol that the script offers. -/
theorem Script.Reaches.covers {d : Declaring} (h : s.Reaches round (g :: rest) d) :
    Declares.CoversGlobal (s.Offers visible round) d g := by
  obtain ⟨rfl, front, hScript, hGlobals, hFunctions⟩ := h
  cases g with
  | missing => trivial
  | var v =>
    refine .globalVar _ v ?_
    have hVars : s.globalVars = front.filterMap Global.var? ++ v :: rest.filterMap Global.var? := by
      change s.globals.filterMap Global.var? = _
      rw [hScript, filterMap_append]
      rfl
    rw [hVars, hGlobals, List.getElem?_append_right (Nat.le_refl _), Nat.sub_self]
    rfl
  | function f =>
    refine .function _ f ?_
    have hAll : s.functions =
        front.filterMap Global.function? ++ f :: rest.filterMap Global.function? := by
      change s.globals.filterMap Global.function? = _
      rw [hScript, filterMap_append]
      rfl
    rw [hAll, hFunctions, List.getElem?_append_right (Nat.le_refl _), Nat.sub_self]
    rfl

theorem Script.Reaches.next {d d' : Declaring} (h : s.Reaches round (g :: rest) d)
    (hStep : Declares.global pos g d = (g', d')) :
    s.Reaches round rest d' := by
  have hRound := (Declares.global_goes hStep).round
  obtain ⟨rfl, front, hScript, hGlobals, hFunctions⟩ := h
  obtain ⟨hGlobals', hFunctions'⟩ := Declares.global_counts hStep
  refine ⟨hRound, front ++ [g], by simp [hScript], ?_, ?_⟩
  · rw [hGlobals', hGlobals, filterMap_append, length_append]
    cases g <;> rfl
  · rw [hFunctions', hFunctions, filterMap_append, length_append]
    cases g <;> rfl

theorem Script.offers_library : Scope.All (s.Offers visible round) ⟨visible.map (·.symbol)⟩ := by
  intro sym hSym
  obtain ⟨f, hf, rfl⟩ := List.mem_map.mp hSym
  exact .library f hf

theorem Declares.requireDefault_keeps {Top : Symbol → Prop} {u : Unit}
    {d d' : Declaring} (h : requireDefault s d = (u, d')) : Declaring.Keeps Top d d' := by
  refine report_keeps ?_ h
  split <;> simp [malformed, Diagnostic.isError]

/-- The declaration of names reports errors only. If it finds nothing, all names of the script are
declared. -/
theorem Script.declare_declared {visible : List LibraryFunction} {round : Nat} {s s' : Script}
    {ds : List Diagnostic} (h : s.declare visible round = (s', ds)) :
    Assures ds (s.Declared (s.Offers visible round) round s') := by
  let start : Declaring := { inner := ⟨visible.map (·.symbol)⟩, round }
  obtain ⟨d', hRun, rfl⟩ : ∃ d', Declares.script s start = (s', d') ∧ d'.diagnostics = ds := by
    cases h
    exact ⟨_, rfl, rfl⟩
  simp only [Declares.script, state_bind_eq, state_get_eq, state_pure_eq] at hRun
  obtain ⟨globals, d₁, hGlobals, _, d₂, hDefault, sts, d₃, hStates, _, _, ⟨rfl, rfl⟩, rfl,
    rfl⟩ :=
    hRun
  have hFirst :=
    @Declares.mapM_declared (s.Offers visible round) _ _ _ _ Global.routines _ _ (s.Reaches round)
    (fun _ _ _ _ _ hReaches hStep =>
      ⟨hReaches.next hStep, Declares.global_declared hStep hReaches.covers⟩)
    ⟨rfl, [], rfl, rfl, rfl⟩ hGlobals
  have hSecond : Declaring.Keeps (s.Offers visible round) d₁ d₂ :=
    Declares.requireDefault_keeps hDefault
  have hBefore := hFirst.1.trans hSecond
  have hThird := @Declares.states_declared (s.Offers visible round) _ _ _ _ _ _ hStates
    (fun i t hi => by rw [Nat.zero_add, hBefore.round]; exact .state i t hi) fun sym hKind => .event sym hKind
  have hAll := hBefore.trans hThird.1
  have hChain : ∀ sc ∈ start.chain, sc.All (s.Offers visible round) := by
    simpa [Declaring.chain, start] using s.offers_library
  refine ⟨?_, fun hNone => ?_⟩
  · obtain ⟨ds, hds, hErrors⟩ := hAll.found
    rw [hds]
    exact hErrors
  · obtain ⟨hHandlers, hScopes⟩ := hThird.2 hNone (hBefore.chain hChain)
    have hFunctions := hFirst.2
      (hSecond.diagnostics_eq_nil (hThird.1.diagnostics_eq_nil hNone)) hChain
    rw [hBefore.round] at hHandlers
    refine ⟨?_, hScopes, rel_append hFunctions hHandlers⟩
    simpa using hAll.chain hChain d₃.inner (by simp [Declaring.chain])

/-- What resolution makes of a routine in which nothing is found. -/
structure Routine.Resolved (Top : Symbol → Prop) (r r' : Routine) : Prop where
  result : r'.result = r.result
  entry : r'.entry = r.entry
  params : r'.params = r.params
  body : ∃ around, (∀ sc ∈ around, sc.All Top) ∧
    Script.resolveBody around r.body = .ok (r'.body, [])

/-- What the type analysis makes of a routine in which nothing is found. -/
structure Routine.Checked (r r' : Routine) : Prop where
  result : r'.result = r.result
  entry : r'.entry = r.entry
  params : r'.params = r.params
  body : Script.checkBody r.result r.body = .ok (r'.body, [])

section

variable {β : Type} {step : α → Except Fault (Noted α)} {parts : α → List β} {R : β → β → Prop}
  {as as' : List α}

/-- Steps over a list, each of which says something about the parts of its element. -/
theorem notedAll_assures (h : notedAll step as = .ok (as', ds))
    (hStep : ∀ a ∈ as, ∀ a' ds, step a = .ok (a', ds) →
      Assures ds (Forall₂ R (parts a) (parts a'))) :
    Assures ds (Forall₂ R (as.flatMap parts) (as'.flatMap parts)) := by
  induction as generalizing as' ds with
  | nil =>
    cases h
    exact .nothing .nil
  | cons a as ih =>
    simp only [notedAll, bind_eq_ok] at h
    obtain ⟨⟨a', da⟩, ha, ⟨as', ds'⟩, has, h⟩ := h
    cases h
    have hTail := ih has fun x hx => hStep x (by simp [hx])
    exact ((hStep a (by simp) a' da ha).append hTail).imp fun hBoth => rel_append hBoth.1 hBoth.2

theorem Script.checkUntil_cons {a : α} : checkUntil step (a :: as) = .ok (as', ds) ↔
    (∃ a', step a = .ok (a', ds) ∧ ds ≠ [] ∧ a' :: as = as') ∨
      ∃ a' rest, step a = .ok (a', []) ∧ checkUntil step as = .ok (rest, ds) ∧ a' :: rest = as' := by
  simp only [checkUntil, bind_eq_ok, Prod.exists, stops_eq_ok, pure_eq_ok, Prod.mk.injEq]
  grind

theorem checkUntil_assures (h : Script.checkUntil step as = .ok (as', ds))
    (hStep : ∀ a ∈ as, ∀ a' ds, step a = .ok (a', ds) →
      Assures ds (Forall₂ R (parts a) (parts a'))) :
    Assures ds (Forall₂ R (as.flatMap parts) (as'.flatMap parts)) := by
  induction as generalizing as' ds with
  | nil =>
    cases h
    exact .nothing .nil
  | cons a as ih =>
    rcases Script.checkUntil_cons.mp h with ⟨a', ha, hFound, rfl⟩ | ⟨a', rest, ha, has, rfl⟩
    · exact ⟨(hStep a (by simp) a' _ ha).errors, fun hNone => absurd hNone hFound⟩
    · exact (ih has fun x hx => hStep x (by simp [hx])).imp
        fun hTail => rel_append ((hStep a (by simp) a' _ ha).holds rfl) hTail

end

namespace Script

variable {Top : Symbol → Prop} {around : List Scope}

theorem resolveBody_assures (hAround : ∀ sc ∈ around, sc.All Top)
    (h : resolveBody around body = .ok (body', ds)) : Assures ds
      (∃ around, (∀ sc ∈ around, sc.All Top) ∧ resolveBody around body = .ok (body', [])) := by
  refine ⟨?_, fun hNone => ⟨around, hAround, hNone ▸ h⟩⟩
  simp only [resolveBody, bind_eq_ok] at h
  obtain ⟨b, _, h⟩ := h
  cases h
  have hAny : ∀ scopes : List Scope, ∀ sc ∈ scopes, sc.All fun _ => True := fun _ _ _ _ _ => trivial
  exact (Stmt.linkAll_assures (fun s _ => s.link_assures) (hAny _) (hAny _) (hAny _)).errors

theorem resolveGlobal_assures (hAround : ∀ sc ∈ around, sc.All Top)
    (h : resolveGlobal around g = .ok (g', ds)) :
    Assures ds (Forall₂ (Routine.Resolved Top) g.routines g'.routines) := by
  cases g with
  | missing =>
    cases h
    exact .nothing .nil
  | var v =>
    cases h
    exact (v.init.link_assures hAround).imp fun _ => .nil
  | function f =>
    simp only [resolveGlobal, bind_eq_ok] at h
    obtain ⟨⟨body, db⟩, hBody, h⟩ := h
    cases h
    exact (resolveBody_assures hAround hBody).imp fun hBody => .cons ⟨rfl, rfl, rfl, hBody⟩ .nil

theorem resolveHandler_assures {h₀ h₁ : Option Handler} (hAround : ∀ sc ∈ around, sc.All Top)
    (h : resolveHandler around h₀ = .ok (h₁, ds)) :
    Assures ds (Forall₂ (Routine.Resolved Top) (handlerRoutines h₀) (handlerRoutines h₁)) := by
  simp only [resolveHandler, bind_eq_ok, need_eq_ok] at h
  obtain ⟨e, rfl, ⟨body, db⟩, hBody, h⟩ := h
  cases h
  exact (resolveBody_assures hAround hBody).imp fun hBody => .cons ⟨rfl, rfl, rfl, hBody⟩ .nil

theorem resolveState_assures {st st' : Option State} (hAround : ∀ sc ∈ around, sc.All Top)
    (hScope : ∀ t, st = some t → ∀ sc ∈ t.scope.toList, sc.All Top)
    (h : resolveState around st = .ok (st', ds)) :
    Assures ds (Forall₂ (Routine.Resolved Top) (stateRoutines st) (stateRoutines st')) := by
  simp only [resolveState, bind_eq_ok, need_eq_ok] at h
  obtain ⟨t, rfl, ⟨events, de⟩, hEvents, h⟩ := h
  cases h
  have hInside : ∀ sc ∈ t.scope.toList ++ around, sc.All Top := by
    simp only [mem_append, or_imp, forall_and]
    exact ⟨hScope t rfl, hAround⟩
  exact notedAll_assures hEvents fun _ _ _ _ hStep => resolveHandler_assures hInside hStep

/-- Resolution reports errors only. If it finds nothing in a script whose scopes hold known symbols,
each of its routines is resolved among these. -/
theorem resolve_resolved {s s' : Script} {ds : List Diagnostic} (hScope : ∀ sc ∈ s.scope.toList,
    sc.All Top)
    (hScopes : ∀ st, some st ∈ s.states → ∀ sc ∈ st.scope.toList, sc.All Top)
      (h : s.resolve = .ok (s', ds)) :
    Assures ds (Forall₂ (Routine.Resolved Top) s.routines s'.routines) := by
  simp only [resolve, bind_eq_ok] at h
  obtain ⟨⟨globals, dg⟩, hGlobals, ⟨states, dst⟩, hStates, h⟩ := h
  cases h
  have hFirst := notedAll_assures hGlobals fun _ _ _ _ hStep => resolveGlobal_assures hScope hStep
  have hSecond := notedAll_assures hStates fun st hst _ _ hStep =>
    resolveState_assures hScope (fun t ht => hScopes t (ht ▸ hst)) hStep
  exact (hFirst.append hSecond).imp fun hBoth => rel_append hBoth.1 hBoth.2

theorem resolve_errors {s : Script} (h : s.resolve = .ok (s', ds)) :
    ∀ d ∈ ds, d.isError = true :=
  (@resolve_resolved (fun _ => True) _ _ _ (fun _ _ _ _ => trivial) (fun _ _ _ _ _ _ => trivial) h).errors

theorem checkBody_assures (h : checkBody result body = .ok (body', ds)) :
    Assures ds (checkBody result body = .ok (body', [])) := by
  refine ⟨?_, fun hNone => hNone ▸ h⟩
  simp only [checkBody, bind_eq_ok] at h
  obtain ⟨b, _, ⟨stmts, dss⟩, hStmts, h⟩ := h
  cases h
  exact (Stmt.checkAll_wellTyped hStmts).found.errors

/-- What the type analysis makes of a global variable, where `cs` are the initial values known before. -/
inductive Outcome (cs : Constants) (v : GlobalVar) :
    GlobalVar → Constants → List Diagnostic → Prop where
  | zero {k : Symbol} (hInit : v.init = .missing) (hEntry : v.entry = some k) :
      Outcome cs v v (((k.round, k.index), ⟨.zero v.ty, .zero⟩) :: cs) []
  | found {init : Expr} {ds : List Diagnostic} (hInfer : v.init.infer = .ok (init, ds))
      (hFound : ds ≠ []) : Outcome cs v { v with init } cs ds
  | unfit {init : Expr} (hInfer : v.init.infer = .ok (init, []))
      (hFits : Ty.coercible v.ty init.ty = false) :
      Outcome cs v { v with init } cs [globalMismatch { v with init } init.ty]
  | unfolded {init : Expr} (hInfer : v.init.infer = .ok (init, []))
      (hFits : Ty.coercible v.ty init.ty = true) (hFold : init.fold cs = none) :
      Outcome cs v { v with init } cs
        [{ pos := init.pos, kind := .nonConstantGlobal, message := v.name }]
  | unconverted {init : Expr} {a : Value} (hInfer : v.init.infer = .ok (init, []))
      (hFits : Ty.coercible v.ty init.ty = true) (hFold : init.fold cs = some a)
      (hConvert : a.convert? v.ty = none) :
      Outcome cs v { v with init } cs [globalMismatch { v with init } init.ty]
  | value {init : Expr} {a b : Value} {k : Symbol} (hInfer : v.init.infer = .ok (init, []))
      (hFits : Ty.coercible v.ty init.ty = true) (hFold : init.fold cs = some a)
      (hConvert : a.convert? v.ty = some b) (hEntry : v.entry = some k) :
      Outcome cs v { v with init } (((k.round, k.index), ⟨b, init.fourth cs⟩) :: cs) []

theorem recordConstant_eq_ok {c : Constant} :
    recordConstant cs v c = .ok cs' ↔ ∃ k, v.entry = some k ∧ ((k.round, k.index), c) :: cs = cs' := by
  simp only [recordConstant, bind_eq_ok, need_eq_ok, pure_eq_ok]

theorem checkGlobalVar_outcome (h : checkGlobalVar cs v = .ok ((v', cs'), ds)) : Outcome cs v v' cs' ds := by
  unfold checkGlobalVar at h
  split at h
  · next hInit =>
    simp only [bind_eq_ok, recordConstant_eq_ok] at h
    obtain ⟨_, ⟨k, hEntry, rfl⟩, h⟩ := h
    cases h
    exact .zero hInit hEntry
  · simp only [bind_eq_ok] at h
    obtain ⟨⟨init, di⟩, hInfer, h⟩ := h
    split at h
    · next hFound =>
      cases h
      exact .found hInfer (by simpa using hFound)
    · next hNone =>
      obtain rfl : di = [] := by simpa using hNone
      split at h
      · next hFits =>
        cases h
        exact .unfit hInfer (by simpa using hFits)
      · next hFits =>
        have hFits : Ty.coercible v.ty init.ty = true := by simpa using hFits
        split at h
        · next hFold =>
          cases h
          exact .unfolded hInfer hFits hFold
        · next a hFold =>
          split at h
          · next hConvert =>
            cases h
            exact .unconverted hInfer hFits hFold hConvert
          · next b hConvert =>
            simp only [bind_eq_ok, recordConstant_eq_ok] at h
            obtain ⟨_, ⟨k, hEntry, rfl⟩, h⟩ := h
            cases h
            exact .value hInfer hFits hFold hConvert hEntry

theorem checkGlobalVar_isError (h : checkGlobalVar cs v = .ok ((v', cs'), ds)) :
    ∀ d ∈ ds, d.isError = true := by
  cases checkGlobalVar_outcome h with
  | zero | value => simp
  | found hInfer => exact (Expr.infer_infers _ _ _ hInfer).found.errors
  | unfit | unconverted => simp [globalMismatch]
  | unfolded => simp [Diagnostic.isError]

theorem checkGlobal_var : checkGlobal cs (.var v) = .ok ((g', cs'), ds) ↔
    ∃ v', checkGlobalVar cs v = .ok ((v', cs'), ds) ∧ .var v' = g' := by
  simp only [checkGlobal, bind_eq_ok, Prod.exists, pure_eq_ok, Prod.mk.injEq]
  grind

theorem checkGlobal_function : checkGlobal cs (.function f) = .ok ((g', cs'), ds) ↔
    ∃ body, checkBody f.result f.body = .ok (body, ds) ∧ .function { f with body } = g' ∧ cs = cs' := by
  simp only [checkGlobal, bind_eq_ok, Prod.exists, pure_eq_ok, Prod.mk.injEq]
  grind

theorem checkGlobal_assures (h : checkGlobal cs g = .ok ((g', cs'), ds)) :
    Assures ds (Forall₂ Routine.Checked g.routines g'.routines) := by
  cases g with
  | missing =>
    cases h
    exact .nothing .nil
  | var v =>
    obtain ⟨v', hVar, rfl⟩ := checkGlobal_var.mp h
    exact ⟨checkGlobalVar_isError hVar, fun _ => .nil⟩
  | function f =>
    obtain ⟨body, hBody, rfl, rfl⟩ := checkGlobal_function.mp h
    exact (checkBody_assures hBody).imp fun hBody => .cons ⟨rfl, rfl, rfl, hBody⟩ .nil

theorem checkGlobals_cons :
    checkGlobals cs (g :: gs) = .ok ((gs', cs'), ds) ↔
      (∃ g', checkGlobal cs g = .ok ((g', cs'), ds) ∧ ds ≠ [] ∧ g' :: gs = gs') ∨
        ∃ g' rest cs₁, checkGlobal cs g = .ok ((g', cs₁), []) ∧
          checkGlobals cs₁ gs = .ok ((rest, cs'), ds) ∧ g' :: rest = gs' := by
  simp only [checkGlobals, bind_eq_ok, Prod.exists, stops_eq_ok, pure_eq_ok, Prod.mk.injEq]
  grind

theorem checkGlobals_assures (h : checkGlobals cs gs = .ok ((gs', cs'), ds)) : Assures ds (Forall₂
    Routine.Checked (gs.flatMap Global.routines) (gs'.flatMap Global.routines)) := by
  induction gs generalizing cs gs' ds with
  | nil =>
    cases h
    exact .nothing .nil
  | cons g gs ih =>
    rcases checkGlobals_cons.mp h with ⟨g', hg, hFound, rfl⟩ | ⟨g', rest, cs₁, hg, hgs, rfl⟩
    · exact ⟨(checkGlobal_assures hg).errors, fun hNone => absurd hNone hFound⟩
    · exact (ih hgs).imp fun hTail => rel_append ((checkGlobal_assures hg).holds rfl) hTail

theorem checkHandler_assures {h₀ h₁ : Option Handler} (h : checkHandler h₀ = .ok (h₁, ds)) :
    Assures ds (Forall₂ Routine.Checked (handlerRoutines h₀) (handlerRoutines h₁)) := by
  simp only [checkHandler, bind_eq_ok, need_eq_ok] at h
  obtain ⟨e, rfl, ⟨body, db⟩, hBody, h⟩ := h
  cases h
  exact (checkBody_assures hBody).imp fun hBody => .cons ⟨rfl, rfl, rfl, hBody⟩ .nil

theorem checkState_assures {st st' : Option State} (h : checkState st = .ok (st', ds)) :
    Assures ds (Forall₂ Routine.Checked (stateRoutines st) (stateRoutines st')) := by
  simp only [checkState, bind_eq_ok, need_eq_ok] at h
  obtain ⟨t, rfl, ⟨events, de⟩, hEvents, h⟩ := h
  cases h
  exact checkUntil_assures hEvents fun _ _ _ _ hStep => checkHandler_assures hStep

theorem check_eq_ok : s.check cs = .ok ((s', cs'), ds) ↔
    (∃ globals, checkGlobals cs s.globals = .ok ((globals, cs'), ds) ∧ ds ≠ [] ∧
      { s with globals } = s') ∨
      ∃ globals states, checkGlobals cs s.globals = .ok ((globals, cs'), []) ∧
        checkUntil checkState s.states = .ok (states, ds) ∧ { s with globals, states } = s' := by
  simp only [check, bind_eq_ok, Prod.exists, stops_eq_ok, pure_eq_ok, Prod.mk.injEq]
  grind

/-- The type analysis reports errors only. If it finds nothing, it has gone through every routine. -/
theorem check_checked (h : s.check cs = .ok ((s', cs'), ds)) :
    Assures ds (Forall₂ Routine.Checked s.routines s'.routines) := by
  rcases check_eq_ok.mp h with ⟨globals, hGlobals, hFound, rfl⟩ | ⟨globals, states, hGlobals, hStates,
    rfl⟩
  · exact ⟨(checkGlobals_assures hGlobals).errors, fun hNone => absurd hNone hFound⟩
  · have hSecond := checkUntil_assures hStates fun _ _ _ _ hStep => checkState_assures hStep
    exact hSecond.imp fun hStates => rel_append ((checkGlobals_assures hGlobals).holds rfl) hStates

end Script
end Lsl
