import Lsl.Proofs.ClosedCode

/-! Calls and changes of state lead where their names say. The functions and states of a program stand at the
numbers that the code uses for them, each call agrees with the one function of its name, be it one of the
script or one of the library, and each change of state with the state of its name. -/
namespace Lsl

open List

variable {fs visible : List LibraryFunction} {round : Nat} {e : Surroundings} {r : Routine}

variable {i : Nat} {name : String} {α : Type} {ss : List Stmt}

theorem filter_name_eq {name : α → String} {as : List α} (hDistinct : (as.map name).Nodup) {a : α}
    (ha : a ∈ as) : as.filter (fun b => name b == name a) = [a] := by
  induction as with
  | nil => cases ha
  | cons b as ih =>
    rw [map_cons, nodup_cons] at hDistinct
    rcases List.mem_cons.mp ha with rfl | hMem
    · have hOthers : as.filter (fun b => name b == name a) = [] := by
        rw [filter_eq_nil_iff]
        intro b hb hSame
        exact hDistinct.1 (List.mem_map.mpr ⟨b, hb, by simpa using hSame⟩)
      rw [filter_cons_of_pos (by simp), hOthers]
    · have hOther : name b ≠ name a := fun hSame =>
        hDistinct.1 (List.mem_map.mpr ⟨a, hMem, hSame.symm⟩)
      rw [filter_cons_of_neg (by simpa using hOther)]
      exact ih hDistinct.2 hMem

def EntryAt (kind : SymbolKind) (round i : Nat) (entry : Option Symbol) : Prop :=
  ∃ s, entry = some s ∧ s.kind = kind ∧ s.round = round ∧ s.index = i

/-- In surroundings where the round has places, the number of such a symbol is its place. -/
theorem EntryAt.index_eq {kind : SymbolKind} {s : Symbol} (h : EntryAt kind round i (some s))
    (hPlaced : e.placed.contains round = true) : e.index s = i := by
  obtain ⟨_, hSome, _, hRound, hIndex⟩ := h
  cases hSome
  rw [Surroundings.index, hRound, hPlaced, Bool.or_true, if_pos rfl, hIndex]

/-- A script whose functions and states have symbols numbered in their order, and whose functions have
different names. -/
structure Script.Listed (round : Nat) (s : Script) : Prop where
  functions : ∀ i f, s.functions[i]? = some f → EntryAt .function round i f.entry
  names : (s.functions.map (·.name)).Nodup
  states : ∀ i t, s.states[i]? = some (some t) → EntryAt .state round i t.entry

namespace Declares

variable {d d' : Declaring}

/-- A function that is declared without complaint takes its name and the next number. -/
theorem function_takes {f f' : Function} (h : function f d = (f', d')) (hNone : d'.diagnostics = []) :
    d.inner.local? f'.name = none ∧ EntryAt .function d.round d.functions f'.entry ∧
      ∃ sym, sym.name = f'.name ∧ d'.inner.symbols = d.inner.symbols ++ [sym] := by
  obtain ⟨entry, d₁, ps, b, hDeclare, hBody, rfl⟩ := function_steps h
  obtain ⟨hReport, _⟩ | ⟨c, c', hFrame, _, rfl⟩ := framed_cases hBody
  · cases hReport
    simp at hNone
  · obtain ⟨hInner, _, _, _, _, hWalk⟩ := frame_walks hFrame
    have hBefore := hWalk.diagnostics_eq_nil hNone
    obtain ⟨hFree, hTaken⟩ := declare_takes hDeclare hBefore
    have hEntry := (@declare_keeps (fun _ => True) _ _ _ _ _ hDeclare trivial).2 hBefore
    exact ⟨hFree, ⟨_, hEntry, rfl, rfl, rfl⟩, _, rfl, by rw [hInner, hTaken]⟩

theorem globalVar_takes {v v' : GlobalVar} (h : globalVar v d = (v', d')) (hNone : d'.diagnostics = []) :
    ∃ sym, d'.inner.symbols = d.inner.symbols ++ [sym] := by
  obtain ⟨init, d₁, entry, hInit, hDeclare, rfl⟩ := globalVar_steps h
  cases hInit
  exact ⟨_, (declare_takes hDeclare hNone).2⟩

/-- Functions that are declared one after the other have different names, each of which was free until then,
and the next numbers. -/
theorem globals_take {pos : Pos} {gs gs' : List Global} (h : gs.mapM (global pos) d = (gs', d'))
    (hNone : d'.diagnostics = []) :
    (∀ f ∈ gs'.filterMap Global.function?, d.inner.local? f.name = none) ∧
      ((gs'.filterMap Global.function?).map (·.name)).Nodup ∧
      ∀ i f, (gs'.filterMap Global.function?)[i]? = some f →
        EntryAt .function d.round (d.functions + i) f.entry := by
  induction gs generalizing d gs' with
  | nil =>
    cases h
    exact ⟨by simp, .nil, by simp⟩
  | cons g gs ih =>
    obtain ⟨g', d₁, gs', hg, hgs, rfl⟩ := state_mapM_cons.mp h
    have hBefore := (globals_keep hgs).diagnostics_eq_nil hNone
    obtain ⟨hFree, hDistinct, hEntries⟩ := ih hgs
    obtain ⟨_, hCount⟩ := global_counts hg
    rw [(global_goes hg).round, hCount] at hEntries
    obtain ⟨rfl, rfl, hReport⟩ | ⟨v, v', rfl, rfl, hVar⟩ | ⟨f, f', rfl, rfl, hFunction⟩ :=
      global_cases hg
    · cases hReport
      simp at hBefore
    · obtain ⟨sym, hTaken⟩ := globalVar_takes hVar hBefore
      exact ⟨fun f hf => (local?_of_append hTaken (hFree f hf)).1, hDistinct, hEntries⟩
    · obtain ⟨hName, hEntry, sym, hSym, hTaken⟩ := function_takes hFunction hBefore
      have hFunctions : (Global.function f' :: gs').filterMap Global.function? =
          f' :: gs'.filterMap Global.function? := rfl
      rw [hFunctions]
      refine ⟨List.forall_mem_cons.mpr ⟨hName, fun k hk => (local?_of_append hTaken (hFree k hk)).1⟩,
        List.nodup_cons.mpr ⟨fun hMem => ?_, hDistinct⟩, fun i k hi => ?_⟩
      · obtain ⟨k, hk, hSame⟩ := List.mem_map.mp hMem
        exact (local?_of_append hTaken (hFree k hk)).2 (hSym.trans hSame.symm)
      · cases i with
        | zero =>
          cases hi
          exact hEntry
        | succ i =>
          have hNext := hEntries i k hi
          have hPlace : d.functions + (Global.function f).function?.toList.length + i =
              d.functions + (i + 1) := by
            simp only [Global.function?, Option.toList_some, length_singleton]
            omega
          rwa [hPlace] at hNext

theorem states_numbered {pos : Pos} {index : Nat} {sts sts' : List (Option State)}
    (h : states pos index sts d = (sts', d')) (hNone : d'.diagnostics = []) :
    ∀ i t, sts'[i]? = some (some t) → EntryAt .state d.round (index + i) t.entry := by
  induction sts generalizing index d sts' with
  | nil =>
    cases h
    simp
  | cons st sts ih =>
    obtain ⟨st, st', d₁, sts', hst, hBefore, hsts, rfl⟩ := states_cons h hNone
    obtain ⟨entry, d₂, events, d₃, hDeclare, hEvents, rfl, rfl⟩ := state_steps hst
    have hKept := events_keep hEvents
    obtain ⟨hFirst, hEntry⟩ := @declare_keeps (fun _ => True) _ _ _ _ _ hDeclare trivial
    have hEntry := hEntry (hKept.diagnostics_eq_nil hBefore)
    intro i t hi
    cases i with
    | zero =>
      cases hi
      exact ⟨_, hEntry, rfl, rfl, rfl⟩
    | succ i =>
      have hNext := ih hsts i t hi
      have hRound : d₃.round = d.round := hKept.round.trans hFirst.round
      rw [show index + (i + 1) = index + 1 + i by omega]
      rwa [hRound] at hNext

end Declares

namespace Script

variable {s t : Script}

/-- The declaration of names lists the functions and states. -/
theorem declare_listed (h : s.declare visible round = (t, [])) :
    t.Listed round := by
  obtain ⟨globals, d₁, d₂, sts, d₃, hGlobals, hFound, hDefault, hStates, hNone, rfl⟩ :=
    declare_parts h
  have hSecond : Declaring.Keeps (fun _ => True) d₁ d₂ := Declares.requireDefault_keeps hDefault
  obtain ⟨_, hNames, hEntries⟩ := Declares.globals_take hGlobals hFound
  have hRound : d₂.round = round := hSecond.round.trans (Declares.globals_keep hGlobals).round
  refine ⟨fun i f hi => ?_, hNames, fun i st hi => ?_⟩
  · have hEntry := hEntries i f hi
    rwa [Nat.zero_add] at hEntry
  · have hEntry := Declares.states_numbered hStates hNone i st hi
    rwa [Nat.zero_add, hRound] at hEntry

theorem functions_forget (k : Stage) (s : Script) :
    (s.forget k).functions = s.functions.map (·.forget k) := by
  simp only [functions, forget, filterMap_map, map_filterMap]
  congr
  funext g
  cases g <;> rfl

/-- Functions at the same place of scripts that agree but for later notes. -/
theorem function_of_forget {k : Stage} (h : s.forget k = t.forget k) {f : Function}
    (hi : t.functions[i]? = some f) : ∃ g, s.functions[i]? = some g ∧ g.forget k = f.forget k := by
  have hSame := congrArg (fun u => u.functions[i]?) h
  simp only [functions_forget, List.getElem?_map, hi, Option.map_some] at hSame
  exact Option.map_eq_some_iff.mp hSame

theorem state_of_forget {k : Stage} (h : s.forget k = t.forget k) {st : State}
    (hi : t.states[i]? = some (some st)) :
    ∃ st', s.states[i]? = some (some st') ∧ st'.forget k = st.forget k := by
  have hSame := congrArg (fun u => u.states[i]?) h
  simp only [forget, List.getElem?_map, hi, Option.map_some] at hSame
  obtain ⟨o, ho, hMap⟩ := Option.map_eq_some_iff.mp hSame
  obtain ⟨st', rfl, hForget⟩ := Option.map_eq_some_iff.mp hMap
  exact ⟨st', ho, hForget⟩

/-- What lists the functions and states is noted by the declaration of names. -/
theorem Listed.of_forget (hs : s.Listed round) (h : s.forget .declared = t.forget .declared) :
    t.Listed round where
  functions := fun i f hi => by
    obtain ⟨g, hg, hForget⟩ := function_of_forget h hi
    have hEntry : g.entry = f.entry := congrArg (·.entry) hForget
    exact hEntry ▸ hs.functions i g hg
  names := by
    have hNames : ∀ u : Script,
        (u.forget .declared).functions.map (·.name) = u.functions.map (·.name) := by
      intro u
      rw [functions_forget, map_map]
      rfl
    rw [← hNames, ← h, hNames]
    exact hs.names
  states := fun i st hi => by
    obtain ⟨st', hst', hForget⟩ := state_of_forget h hi
    have hEntry : st'.entry = st.entry := congrArg (·.entry) hForget
    exact hEntry ▸ hs.states i st' hst'

end Script

theorem Scope.lookupKind?_name {chain : List Scope} {want : SymbolKind} {sym : Symbol}
    (h : lookupKind? chain name want = some sym) : sym.name = name := by
  obtain ⟨s, _, hFilter⟩ := exists_of_findSome?_eq_some h
  have hFound := List.find?_some (Option.filter_eq_some_iff.mp hFilter).1
  simpa using hFound

/-- A change to a state whose symbol has the name that is written. -/
def NamedAlike (g : String × Option Symbol) : Prop := ∃ sym, g.2 = some sym ∧ sym.name = g.1

namespace Stmt

theorem linkAll_changes {here around : List Scope}
    (ih : ∀ s ∈ ss, ∀ here around, s.linkProblems here around = [] →
      ∀ g ∈ (s.link here around).changes, NamedAlike g)
    (hNone : linkAllProblems here around ss = []) : ∀ g ∈ changesAll (linkAll here around ss),
      NamedAlike g := by
  induction ss with
  | nil => simp [linkAll, changesAll]
  | cons s ss ihTail =>
    obtain ⟨hHead, hTail⟩ := List.append_eq_nil_iff.mp hNone
    rw [linkAll, changesAll, forall_mem_append]
    exact ⟨ih s (by simp) here around hHead, ihTail (fun x hx => ih x (by simp [hx])) hTail⟩

/-- States are found under the names that are written. -/
theorem link_changes (s : Stmt) (here around : List Scope) (hNone : s.linkProblems here around = []) :
    ∀ g ∈ (s.link here around).changes, NamedAlike g := by
  induction s generalizing here around with
  | missing | expr | decl | jump | label | ret | empty => simp [link, changes]
  | block p scope ss ih =>
    exact linkAll_changes ih hNone
  | ifThen p c ts t es e iht ihe =>
    simp only [linkProblems, append_eq_nil_iff] at hNone
    rw [link, changes, forall_mem_append]
    exact ⟨iht _ _ hNone.1.2, ihe _ _ hNone.2⟩
  | whileLoop p c bs b ih | forLoop p init c step bs b ih =>
    exact ih _ _ (List.append_eq_nil_iff.mp hNone).2
  | doWhile p bs b c ih =>
    exact ih _ _ (List.append_eq_nil_iff.mp hNone).1
  | goto p name entry =>
    intro g hg
    obtain rfl := List.mem_singleton.mp hg
    simp only [linkProblems, rebindProblems] at hNone
    cases hFound : Scope.lookupKind? here name .state with
    | none => simp [hFound] at hNone
    | some sym =>
      exact ⟨sym, by simp only [rebind, hFound, Option.some_or], Scope.lookupKind?_name hFound⟩

theorem changesAll_forget (ih : ∀ s ∈ ss, (s.forget .resolved).changes = s.changes) :
    changesAll (forgetAll .resolved ss) = changesAll ss := by
  induction ss with
  | nil => rfl
  | cons s ss ihTail =>
    rw [forgetAll, changesAll, changesAll, ih s (by simp), ihTail fun x hx => ih x (by simp [hx])]

theorem changes_forget (s : Stmt) : (s.forget .resolved).changes = s.changes := by
  induction s with
  | block p scope ss ih => exact changesAll_forget ih
  | ifThen p c ts t es e iht ihe => simp only [forget, changes, iht, ihe]
  | whileLoop | doWhile | forLoop => assumption
  | missing | expr | decl | jump | label | ret | goto | empty => rfl

theorem uses_of_mem_changes {entry : Option Symbol} (s : Stmt)
    (h : (name, entry) ∈ s.changes) : .uses .state entry ∈ s.notes := by
  induction s with
  | block p scope ss ih =>
    obtain ⟨s, hs, hChange⟩ := mem_changesAll.mp h
    exact mem_notesAll.mpr ⟨s, hs, ih s hs hChange⟩
  | ifThen p c ts t es e iht ihe =>
    rw [notes, mem_append, mem_append]
    exact (List.mem_append.mp h).imp (fun ht => Or.inr (iht ht)) ihe
  | whileLoop p c bs b ih | forLoop p init c step bs b ih => exact mem_append_right _ (ih h)
  | doWhile p bs b c ih => exact mem_append_left _ (ih h)
  | goto p state entry' =>
    cases List.mem_singleton.mp h
    exact mem_singleton_self _
  | missing | expr | decl | jump | label | ret | empty => cases h

theorem checkAll_changes {result : Ty} {failed : Bool} {ss' : List Stmt} {ds : List Diagnostic}
    (h : checkAll result failed ss = .ok (ss', ds)) : changesAll ss' = changesAll ss := by
  rw [← changesAll_forget fun s _ => s.changes_forget, (checkAll_wellTyped h).keeps,
    changesAll_forget fun s _ => s.changes_forget]

end Stmt

def Routine.changes (r : Routine) : List (String × Option Symbol) :=
  r.body.elim [] fun b => Stmt.changesAll b.stmts

theorem Routine.Resolved.named {Top : Symbol → Prop} {r' : Routine} (h : Routine.Resolved Top r r') :
    ∀ g ∈ r'.changes, NamedAlike g := by
  obtain ⟨around, _, hBody⟩ := h.body
  simp only [Script.resolveBody, bind_eq_ok, need_eq_ok, pure_eq_ok, Prod.mk.injEq] at hBody
  obtain ⟨b, _, hBody, hNone⟩ := hBody
  rw [Routine.changes, ← hBody]
  exact Stmt.linkAll_changes (fun s _ => s.link_changes) hNone

theorem Routine.Checked.changes_eq {r' : Routine} (h : Routine.Checked r r') : r'.changes = r.changes := by
  have hBody := h.body
  simp only [Script.checkBody, bind_eq_ok, need_eq_ok, pure_eq_ok, Prod.mk.injEq] at hBody
  obtain ⟨b, hBlock, ⟨ss, ds⟩, hCheck, hBody, _⟩ := hBody
  rw [Routine.changes, Routine.changes, ← hBody, hBlock]
  exact Stmt.checkAll_changes hCheck

namespace Session

variable {script : Script} {library : Library} {privileged : Bool} {s : Session}

/-- The script that passes the analyses is the one that was written, with its functions and states listed and
its changes of state bound to the states of their names. -/
theorem analyze_listed (h : (start script library privileged).analyze = .ok s) (hFailed : s.failed = false) :
    s.script.Listed 1 ∧ s.script.forget .raw = script.forget .raw ∧
      ∀ r ∈ s.script.routines, ∀ g ∈ r.changes, NamedAlike g := by
  obtain ⟨s₁, s₂, s₃, cs, ds, hDeclare, hResolve, hCheck, _, _, rfl⟩ := analyze_steps h hFailed
  refine ⟨?_, ?_, fun r hr => ?_⟩
  · have hResolved : s₂.forget .declared = s₁.forget .declared :=
      Script.resolve_keeps (by decide) hResolve
    have hChecked : s₃.forget .declared = s₂.forget .declared := Script.check_keeps hCheck
    exact (Script.declare_listed hDeclare).of_forget (hChecked.trans hResolved).symm
  · have hDeclared := Script.declare_raw (library.visible privileged) 1 script
    rw [hDeclare] at hDeclared
    exact (Script.check_keeps hCheck).trans ((Script.resolve_keeps (by decide) hResolve).trans hDeclared)
  · have hDeclared := (Script.declare_declared hDeclare).2 rfl
    obtain ⟨r₂, hr₂, hChecked⟩ := exists_of_mem_right ((Script.check_checked hCheck).2 rfl) hr
    obtain ⟨r₁, _, hResolved⟩ := exists_of_mem_right
      ((Script.resolve_resolved hDeclared.scope hDeclared.states hResolve).holds rfl) hr₂
    rw [hChecked.changes_eq]
    exact hResolved.named

end Session

namespace Program

/-- A call of a function of the program: it is the only one of its name, stands at the number of the call, and
has the result and the parameters with which it is called. -/
def Calls (p : Program) (c : CallTarget) : Prop :=
  ∃ f, p.functions.filter (fun g => g.name == c.name) = [f] ∧
    (∃ i : Nat, c.index = i ∧ p.functions[i]? = some f) ∧
    f.body.result = c.result ∧ f.body.paramTypes = c.params ∧ (f.body.paramBytes : Int) = c.argBytes

def Enters (p : Program) (index : Int) (name : String) : Prop :=
  ∃ (i : Nat) (st : StateCode), index = i ∧ p.states[i]? = some st ∧ st.name = name

end Program

/-- A call of a library function: it is the only one of its name that is visible, and has the number, the
result and the parameters with which it is called. -/
def CallTarget.InLibrary (visible : List LibraryFunction) (c : CallTarget) : Prop :=
  ∃ f, visible.filter (fun g => g.name == c.name) = [f] ∧ f.index = c.index ∧ f.result = c.result ∧
    f.params = c.params

/-- A body whose calls and changes of state lead to functions and states of the program, or to the library. -/
structure Body.Linked (visible : List LibraryFunction) (p : Program) (b : Body) : Prop where
  frames : Frames b.code
  calls : ∀ c, .call c ∈ b.code → if c.library then c.InLibrary visible else p.Calls c
  changes : ∀ i name, .state i name ∈ b.code → p.Enters i name

/-- A program whose functions and states stand at their numbers, and whose bodies are linked. -/
structure Program.Linked (visible : List LibraryFunction) (p : Program) : Prop where
  functions : ∀ (i : Nat) f, p.functions[i]? = some f → f.index = i
  states : ∀ (i : Nat) st, p.states[i]? = some st → st.index = i
  bodies : p.Bodies (Body.Linked visible p)

theorem forall₂_getElem?_right {β : Type} {R : α → β → Prop} {as : List α} {bs : List β}
    (h : Forall₂ R as bs) {b : β} (hi : bs[i]? = some b) : ∃ a, as[i]? = some a ∧ R a b := by
  obtain ⟨hb, rfl⟩ := List.getElem?_eq_some_iff.mp hi
  have ha : i < as.length := h.length_eq ▸ hb
  exact ⟨as[i], List.getElem?_eq_getElem ha, getElem_forall₂ h ha hb⟩

theorem forall₂_getElem?_left {β : Type} {R : α → β → Prop} {as : List α} {bs : List β}
    (h : Forall₂ R as bs) {a : α} (hi : as[i]? = some a) : ∃ b, bs[i]? = some b ∧ R a b := by
  obtain ⟨ha, rfl⟩ := List.getElem?_eq_some_iff.mp hi
  have hb : i < bs.length := h.length_eq ▸ ha
  exact ⟨bs[i], List.getElem?_eq_getElem hb, getElem_forall₂ h ha hb⟩

/-- The head of an emitted function. -/
structure FunctionCode.Heads (e : Surroundings) (f : Function) (c : FunctionCode) : Prop where
  index : ∃ sym, f.entry = some sym ∧ c.index = e.index sym
  name : c.name = f.name
  result : c.body.result = f.result
  params : c.body.paramTypes = paramTypes f.params

def StateCode.Heads (e : Surroundings) (st : Option State) (c : StateCode) : Prop :=
  ∃ t sym, st = some t ∧ t.entry = some sym ∧ c.index = e.index sym ∧ c.name = t.name

namespace Script

variable {s : Script} {placed : List Nat} {constants : Constants} {p : Program} {l l' : Labels}

/-- Functions and states are emitted in the order of the script, under their names and numbers. -/
theorem emit_heads (h : s.emit placed constants l = .ok (p, l')) :
    Forall₂ (FunctionCode.Heads (s.surroundings placed constants)) s.functions p.functions ∧
      Forall₂ (StateCode.Heads (s.surroundings placed constants)) s.states p.states := by
  obtain ⟨globals, functions, states, l₁, _, hFunctions, hStates, rfl⟩ := emit_eq.mp h
  refine ⟨(emits_mapM_forall₂ hFunctions).imp ?_, (emits_mapM_forall₂ hStates).imp ?_⟩
  · rintro f c ⟨k, k', hf⟩
    obtain ⟨sym, body, hEntry, hBody, rfl⟩ := emitFunction_eq.mp hf
    obtain ⟨sym', block, _, _, hBody⟩ := emitBody_eq_ok hBody
    obtain ⟨code, _, rfl⟩ := emitBody_eq.mp hBody
    refine ⟨⟨sym, hEntry, rfl⟩, rfl, rfl, ?_⟩
    simp [Body.paramTypes, paramSlots, paramTypes]
  · rintro st c ⟨k, k', hst⟩
    obtain ⟨t, sym, events, rfl, hEntry, _, rfl⟩ := emitState_eq.mp hst
    exact ⟨t, sym, rfl, hEntry, rfl, rfl⟩

/-- The functions and states of a listed script stand at their numbers. -/
theorem Listed.emitted (hs : s.Listed round) (hPlaced : placed.contains round = true)
    (h : s.emit placed constants l = .ok (p, l')) :
    (∀ (i : Nat) f, p.functions[i]? = some f → f.index = i) ∧
      (∀ (i : Nat) st, p.states[i]? = some st → st.index = i) ∧ (p.functions.map (·.name)).Nodup := by
  obtain ⟨hFunctions, hStates⟩ := emit_heads h
  refine ⟨fun i c hi => ?_, fun i c hi => ?_, ?_⟩
  · obtain ⟨f, hf, hHead⟩ := forall₂_getElem?_right hFunctions hi
    obtain ⟨sym, hEntry, hIndex⟩ := hHead.index
    have hAt := hs.functions i f hf
    rw [hEntry] at hAt
    exact hIndex.trans (hAt.index_eq hPlaced)
  · obtain ⟨_, hst, t, sym, rfl, hEntry, hIndex, _⟩ := forall₂_getElem?_right hStates hi
    have hAt := hs.states i t hst
    rw [hEntry] at hAt
    exact hIndex.trans (hAt.index_eq hPlaced)
  · rw [map_eq_of_forall₂ hFunctions fun f c hHead => hHead.name]
    exact hs.names

end Script

/-- A program that holds the functions and states of a script at their places, and beside which the visible
library functions have different names and proper numbers. -/
structure Program.Hosts (visible : List LibraryFunction) (script : Script) (p : Program) : Prop where
  functions : ∀ (i : Nat) (f : Function), script.functions[i]? = some f →
    ∃ c : FunctionCode, p.functions[i]? = some c ∧ c.name = f.name ∧ c.body.result = f.result ∧
      c.body.paramTypes = paramTypes f.params
  names : (p.functions.map (·.name)).Nodup
  states : ∀ (i : Nat) (t : State), script.states[i]? = some (some t) → p.Enters i t.name
  numbers : ∀ f ∈ visible, 0 ≤ f.index
  library : (visible.map (·.name)).Nodup

namespace Routine

variable {script : Script} {b : Block} {p : Program}

/-- A call in a sound routine leads to the function of its name. -/
theorem Sound.call_linked (h : r.Sound (script.Offers visible round) round b)
    (hHosts : p.Hosts visible script)
    (hPlaced : e.placed.contains round = true) {c : CallTarget}
    (hGrounded : (Instr.call c).Grounded e (· ∈ Stmt.notesAll b.stmts)) :
    if c.library then c.InLibrary visible else p.Calls c := by
  obtain ⟨s, hUse, hCall⟩ := hGrounded
  obtain ⟨hServes, hTop⟩ := h.offered hUse (Or.inl rfl)
  cases hCall
  cases hTop with
  | library f hMem =>
    have hIndex : f.index = e.index f.symbol := (Int.toNat_of_nonneg (hHosts.numbers f hMem)).symm
    exact ⟨f, filter_name_eq hHosts.library hMem, hIndex, rfl, rfl⟩
  | function i f hMem =>
    obtain ⟨k, hk, hName, hResult, hParams⟩ := hHosts.functions i f hMem
    have hOnly := filter_name_eq hHosts.names (mem_of_getElem? hk)
    rw [hName] at hOnly
    refine ⟨k, hOnly, ⟨i, ?_, hk⟩, hResult, hParams, ?_⟩
    · rw [Surroundings.index, hPlaced, Bool.or_true]
      rfl
    · rw [Body.paramBytes, hParams]
      rfl
  | event sym hKind => rw [hKind] at hServes; cases hServes
  | _ => cases hServes

/-- A change of state in a sound routine leads to the state of its name. -/
theorem Sound.change_linked (h : r.Sound (script.Offers visible round) round b)
    (hHosts : p.Hosts visible script) (hPlaced : e.placed.contains round = true) {s : Symbol}
    (hChange : (name, some s) ∈ Stmt.changesAll b.stmts) (hName : s.name = name) :
    p.Enters (e.index s) name := by
  obtain ⟨t, ht, hIn⟩ := Stmt.mem_changesAll.mp hChange
  have hUse := Stmt.mem_notesAll.mpr ⟨t, ht, t.uses_of_mem_changes hIn⟩
  obtain ⟨hServes, hTop⟩ := h.offered hUse (Or.inr rfl)
  cases hTop with
  | state i st hMem =>
    have hIndex : e.index { name := st.name, kind := .state, ty := .void, index := i, round } = i := by
      rw [Surroundings.index, hPlaced, Bool.or_true]
      rfl
    rw [hIndex, ← hName]
    exact hHosts.states i st hMem
  | event sym hKind => rw [hKind] at hServes; cases hServes
  | _ => cases hServes

/-- The body of a sound routine is linked. -/
theorem Sound.body_linked {outer : Surroundings} {body : Body}
    (h : r.Sound (script.Offers visible round) round b) (hBlock : r.body = some b)
    (hEmits : r.Emits outer body) (hPlaced : outer.placed.contains round = true)
    (hHosts : p.Hosts visible script) (hNamed : ∀ g ∈ r.changes, NamedAlike g) : body.Linked visible
      p := by
  obtain ⟨sym, l, l', c, _, _, _, hCode, rfl⟩ := h.emits hBlock hEmits
  have hInner : (outer.enter r.result sym r.params b).placed.contains round = true := hPlaced
  have hLinked := h.linked hCode (Ty.frameSize ((Stmt.localsAll b.stmts).map (·.ty)))
  refine ⟨hLinked.frames, fun k hk => ?_, fun i name hi => ?_⟩
  · exact h.call_linked hHosts hInner (h.grounded hCode _ _ hk)
  · obtain ⟨s, hChange, rfl⟩ := hLinked.changes i name hi
    have hChanges : r.changes = Stmt.changesAll b.stmts := by rw [Routine.changes, hBlock]; rfl
    obtain ⟨_, hSome, hName⟩ := hNamed _ (hChanges ▸ hChange)
    cases hSome
    exact h.change_linked hHosts hInner hChange hName

end Routine

namespace Session

variable {script : Script} {library : Library} {privileged : Bool} {s s' : Session} {p : Program}

/-- The program of a script without errors holds its functions and states. -/
theorem emit_hosts (hLibrary : Library.addAll {} fs = .ok library)
    (hAnalyze : (start script library privileged).analyze = .ok s) (hEmit : s.emit = .ok (s', some p)) :
    p.Hosts (library.visible privileged) script := by
  obtain ⟨hFailed, l, hScript, _⟩ := emit_eq_ok hEmit
  obtain ⟨hListed, hRaw, _⟩ := analyze_listed hAnalyze hFailed
  have hAccepted := analyze_accepted hAnalyze hFailed
  have hPlaced := hAccepted.contains_placed
  obtain ⟨_, _, hNames⟩ := hListed.emitted hPlaced hScript
  obtain ⟨hFunctions, hStates⟩ := Script.emit_heads hScript
  have hProper := Library.proper_empty.addAll hLibrary
  refine ⟨fun i f hi => ?_, hNames, fun i t hi => ?_, fun f hf => ?_, (hProper.visible privileged).1⟩
  · obtain ⟨g, hg, hForget⟩ := Script.function_of_forget hRaw hi
    obtain ⟨c, hc, hHead⟩ := forall₂_getElem?_left hFunctions hg
    have hParams : paramTypes g.params = paramTypes f.params := by
      have hSame := congrArg (fun f => paramTypes f.params) hForget
      simp only [Function.forget, paramTypes, map_map] at hSame
      exact hSame
    exact ⟨c, hc, hHead.name.trans (congrArg (·.name) hForget),
      hHead.result.trans (congrArg (·.result) hForget), hHead.params.trans hParams⟩
  · obtain ⟨st, hst, hForget⟩ := Script.state_of_forget hRaw hi
    obtain ⟨c, hc, _, _, hSome, _, _, hName⟩ := forall₂_getElem?_left hStates hst
    cases hSome
    exact ⟨i, c, rfl, hc, hName.trans (congrArg (·.name) hForget)⟩
  · exact (hProper.range f (List.mem_filter.mp hf).1).1

/-- A script without errors has a program in which the functions and states stand at their numbers, and every
call and every change of state leads to the function or state of its name: each call finds on the stack what
its callee takes, and agrees with it in number, result and parameters. -/
theorem emit_linked (hLibrary : Library.addAll {} fs = .ok library)
    (hAnalyze : (start script library privileged).analyze = .ok s) (hFailed : s.failed = false) :
    ∃ s' p, s.emit = .ok (s', some p) ∧ p.Linked (library.visible privileged) := by
  have hAccepted := analyze_accepted hAnalyze hFailed
  obtain ⟨hListed, _, hNamed⟩ := analyze_listed hAnalyze hFailed
  have hPlaced := hAccepted.contains_placed
  obtain ⟨s', p, hEmit, hImplements⟩ := hAccepted.emits
  obtain ⟨_, l, hScript, _⟩ := emit_eq_ok hEmit
  obtain ⟨hFunctions, hStates, _⟩ := hListed.emitted hPlaced hScript
  have hHosts := emit_hosts hLibrary hAnalyze hEmit
  have hBodies : p.Implements (fun _ => Body.Linked (library.visible privileged) p) s.script := by
    refine hImplements.mono fun r hr body hEmits => ?_
    obtain ⟨r₀, _, hAnalyzed⟩ := hAccepted.routines r hr
    obtain ⟨b₀, b, _, hBlock, _, hSound⟩ := hAnalyzed.body
    exact hSound.body_linked hBlock hEmits hPlaced hHosts (hNamed r hr)
  exact ⟨s', p, hEmit, hFunctions, hStates, hBodies.bodies⟩

end Session

/-- A script that calls a function of its own and one of the library, and changes the state:

    integer twice(integer a) { return a + a; }
    default { state_entry() { llSay(twice(1), "x"); state other; } }
    state other { state_entry() { } } -/
def Script.visiting : Script :=
  let a : Expr := .ident ⟨{}, "a", "", none, .void⟩
  let twice : Function :=
    { pos := {}, name := "twice", result := .integer, params := [⟨{}, "a", .integer, none⟩]
      body := some { pos := {}, stmts := [.ret {} (.binary {} .add a a .void .void .void)] } }
  let say : Expr :=
    .call {} "llSay" [.call {} "twice" [.int {} 1 .void] none .void, .string {} "x" .void] none .void
  let entry (stmts : List Stmt) : Handler :=
    { pos := {}, name := "state_entry", params := [], body := some { pos := {}, stmts } }
  { pos := {}
    globals := [.function twice]
    states :=
      [some { pos := {}, name := "default", events := [some (entry [.expr {} say, .goto {} "other" none])] },
       some { pos := {}, name := "other", events := [some (entry [])] }] }

theorem Session.emit_linked_visiting :
    ∃ s, Library.addAll {} [⟨"llSay", .void, [.integer, .string], false, 23⟩] =
        .ok ⟨[⟨"llSay", .void, [.integer, .string], false, 23⟩]⟩ ∧
      (start .visiting ⟨[⟨"llSay", .void, [.integer, .string], false, 23⟩]⟩ false).analyze = .ok s ∧
      s.failed = false ∧ ∃ s' p, s.emit = .ok (s', some p) ∧
        p.Linked (Library.visible ⟨[⟨"llSay", .void, [.integer, .string], false, 23⟩]⟩ false) := by
  have hLibrary : Library.addAll {} [⟨"llSay", .void, [.integer, .string], false, 23⟩] =
      .ok ⟨[⟨"llSay", .void, [.integer, .string], false, 23⟩]⟩ := rfl
  obtain ⟨s, hAnalyze, hFailed⟩ :=
    @analyze_of_toOption (start .visiting ⟨[⟨"llSay", .void, [.integer, .string], false, 23⟩]⟩
      false) (by decide +kernel)
  exact ⟨s, hLibrary, hAnalyze, hFailed, emit_linked hLibrary hAnalyze hFailed⟩

end Lsl
