import Lsl.Proofs.Backends
import Lsl.Proofs.Outlines

/-! The labels of a program. However often a script is emitted, its program defines no label twice, each
body defines the labels to which it jumps, and a jump statement goes to the number of the label statement
to which it is bound. -/
namespace Lsl

open List

def Program.bodies (p : Program) : List Body :=
  p.functions.map (·.body) ++ p.states.flatMap fun s => s.events.map (·.body)

/-- The labels of the body of a routine are those of its label statements and new ones. -/
theorem Routine.emitBody_numbers {e : Surroundings} {r : Routine} {body : Body} {l l' : Labels} (hl : l.Valid)
    (h : emitBody e r.result r.entry r.params r.body l = .ok (body, l')) :
    Labels.Numbers r.labels l (labelsOf body.code) l' := by
  obtain ⟨sym, block, _, hBlock, h⟩ := emitBody_eq_ok h
  obtain ⟨code, hCode, rfl⟩ := emitBody_eq.mp h
  have hLabels : r.labels = labelsIn (Stmt.notesAll block.stmts) := by rw [Routine.labels, hBlock]; rfl
  rw [hLabels, Surroundings.labelsOf_finish]
  exact Stmt.codeAll_numbers hl hCode

theorem emits_mapM_numbers {α β : Type} {f : α → Emits β} {syms : α → List Symbol}
    {ns : β → List Label}
    {as : List α} {bs : List β} {l l' : Labels}
    (hStep : ∀ a b l l', l.Valid → f a l = .ok (b, l') → Labels.Numbers (syms a) l (ns b) l')
      (hl : l.Valid)
    (h : as.mapM f l = .ok (bs, l')) : Labels.Numbers (as.flatMap syms) l (bs.flatMap ns) l' := by
  induction as generalizing l bs with
  | nil =>
    cases h
    exact .none hl
  | cons a as ih =>
    obtain ⟨b, l₁, bs, hb, hbs, rfl⟩ := emits_mapM_cons.mp h
    have hFirst := hStep a b l l₁ hl hb
    rw [flatMap_cons, flatMap_cons]
    exact hFirst.append (ih hFirst.valid hbs)

namespace Script

theorem labels_eq (s : Script) : s.labels = s.functions.flatMap (fun f => f.routine.labels) ++
    s.states.flatMap fun st => (stateRoutines st).flatMap Routine.labels := by
  have hFunctions : s.globals.flatMap Global.routines = s.functions.map (·.routine) := by
    rw [functions, map_filterMap]
    induction s.globals with
    | nil => rfl
    | cons g gs ih =>
      rw [flatMap_cons, ih]
      cases g <;> rfl
  rw [labels, routines, flatMap_append, hFunctions, flatMap_map, flatMap_assoc]

theorem emitState_numbers {e : Surroundings} {st : Option State} {c : StateCode} {l l' : Labels}
    (hl : l.Valid)
    (h : emitState e st l = .ok (c, l')) : Labels.Numbers ((stateRoutines st).flatMap Routine.labels) l
      (c.events.flatMap fun k => labelsOf k.body.code) l' := by
  obtain ⟨t, _, events, rfl, _, hEvents, rfl⟩ := emitState_eq.mp h
  have hNumbers := @emits_mapM_numbers _ _ _ (fun h => (handlerRoutines h).flatMap Routine.labels)
    (fun k : HandlerCode => labelsOf k.body.code) _ _ _ _ (fun h k l l' hl hk => by
      obtain ⟨g, body, rfl, hBody, rfl⟩ := emitHandler_eq.mp hk
      have hOne := @Routine.emitBody_numbers e g.routine body l l' hl hBody
      simpa [handlerRoutines] using hOne) hl hEvents
  rw [stateRoutines, flatMap_assoc]
  exact hNumbers.perm ((mergeSort_perm events _).symm.flatMap_right _)

/-- The labels of a program are those of the label statements of its script and new ones. -/
theorem emit_numbers {s : Script} {placed : List Nat} {constants : Constants} {p : Program} {l l' : Labels}
    (hl : l.Valid) (h : s.emit placed constants l = .ok (p, l')) :
    Labels.Numbers s.labels l (p.bodies.flatMap fun b => labelsOf b.code) l' := by
  obtain ⟨globals, functions, states, l₁, _, hFunctions, hStates, rfl⟩ := emit_eq.mp h
  have hFirst := @emits_mapM_numbers _ _ _ (fun f => f.routine.labels)
    (fun c : FunctionCode => labelsOf c.body.code) _ _ _ _ (fun f c l l' hl hc => by
      obtain ⟨_, body, _, hBody, rfl⟩ := emitFunction_eq.mp hc
      exact @Routine.emitBody_numbers _ f.routine body l l' hl hBody) hl hFunctions
  have hSecond := emits_mapM_numbers (fun _ _ _ _ hl hc => emitState_numbers hl hc) hFirst.valid hStates
  rw [labels_eq]
  simpa [Program.bodies, flatMap_append, flatMap_map, flatMap_assoc] using
    hFirst.append hSecond

end Script

/-- The labels of the body of a routine: it defines those to which it jumps, returns behind all of them, and
its label statements and jump statements have the numbers of their symbols, where each jump is bound to a
label statement of the same routine. -/
structure Routine.Labelled (m : Labels) (r : Routine) (body : Body) : Prop where
  targets : ∀ n ∈ targetsOf body.code, n ∈ labelsOf body.code
  returns : body.code.getLast? = some .ret
  follows : ∀ before n after, body.code = before ++ .label n :: after → .ret ∈ after
  named : ∃ b, r.body = some b ∧ Named (Stmt.notesAll b.stmts) m body.code ∧
    jumpsIn (Stmt.notesAll b.stmts) ⊆ labelsIn (Stmt.notesAll b.stmts)

theorem Routine.Sound.labelled {Top : Symbol → Prop} {round : Nat} {outer : Surroundings} {m : Labels}
    {r : Routine} {b : Block} {body : Body} (h : r.Sound Top round b)
      (hTop : ∀ s, Top s → s.kind ≠ .label)
    (hBlock : r.body = some b) (hEmits : r.EmitsBy outer m body) : r.Labelled m body := by
  obtain ⟨l, l', hl, hBody, hGrows⟩ := hEmits
  obtain ⟨sym, block, _, hSome, hBody⟩ := emitBody_eq_ok hBody
  cases hBlock.symm.trans hSome
  obtain ⟨c, hCode, rfl⟩ := emitBody_eq.mp hBody
  have hNamed := (Stmt.codeAll_closes hl hCode hGrows).toNamed
  obtain ⟨_, _, _, hEnds⟩ := (outer.enter r.result sym r.params b).finish_eq
    (.enterFrame (Ty.frameSize ((Stmt.localsAll b.stmts).map (·.ty))) :: c)
  refine ⟨h.closes hTop hl hCode _, hEnds, fun before n after hSplit => ret_mem_after hEnds hSplit, b,
    hBlock, ⟨?_, ?_⟩, fun s hs => h.bound hTop s (mem_jumpsIn hs)⟩
  · rw [Surroundings.labelsOf_finish]
    exact hNamed.labels
  · rw [Surroundings.targetsOf_finish]
    exact hNamed.jumps

namespace Session

variable {script : Script} {library : Library} {privileged : Bool} {s t t' : Session}

/-- Sessions after more emissions of the same script, between which others may have taken labels. -/
inductive Later (s : Session) : Session → Prop where
  | now : Later s s
  | emit {t t' : Session} {p : Option Program} (h : Later s t) (hEmit : t.emit = .ok (t', p)) : Later s t'
  | newLabel {t : Session} (h : Later s t) : Later s t.newLabel.1

/-- An emission changes nothing but the numbers of labels. -/
theorem emit_keeps {p : Option Program} (hl : t.labels.Valid) (h : t.emit = .ok (t', p)) :
    t' = { t with labels := t'.labels } ∧ t'.labels.Valid := by
  cases p with
  | none =>
    unfold emit at h
    split at h
    · cases h
      exact ⟨rfl, hl⟩
    · obtain ⟨_, _, h⟩ := bind_eq_ok.mp h
      cases h
  | some p =>
    obtain ⟨_, l, hEmit, rfl⟩ := emit_eq_ok h
    exact ⟨rfl, (Script.emit_implements hl hEmit).2.1⟩

theorem Later.keeps (h : s.Later t) (hl : s.labels.Valid) :
    t = { s with labels := t.labels } ∧ t.labels.Valid := by
  induction h with
  | now => exact ⟨rfl, hl⟩
  | emit _ hEmit ih =>
    obtain ⟨hSame, hValid⟩ := ih
    obtain ⟨hNext, hNextValid⟩ := emit_keeps hValid hEmit
    rw [hSame] at hNext
    exact ⟨hNext, hNextValid⟩
  | newLabel _ ih =>
    obtain ⟨hSame, hValid⟩ := ih
    rw [hSame]
    exact ⟨rfl, Labels.next_valid hValid⟩

/-- However often a script without errors has been emitted, it has a program in which no label is defined
twice and whose bodies have the labels of their routines. -/
theorem emit_labels (hAnalyze : (start script library privileged).analyze = .ok s)
    (hFailed : s.failed = false)
    (hLater : s.Later t) : ∃ t' p, t.emit = .ok (t', some p) ∧
      (p.bodies.flatMap fun b => labelsOf b.code).Nodup ∧ (s.script.labels.map Symbol.key).Nodup ∧
      p.Implements (Routine.Labelled t'.labels) s.script := by
  have hAccepted := analyze_accepted hAnalyze hFailed
  obtain ⟨_, _, hDistinct⟩ := analyze_outline hAnalyze hFailed
  -- Nothing but the numbers of labels has changed since the analyses.
  obtain ⟨hSame, hValid⟩ := hLater.keeps (hAccepted.labels ▸ Labels.valid_empty)
  have hKeys : (s.script.labels.map Symbol.key).Nodup := by
    refine List.Nodup.of_map Prod.snd ?_
    rw [map_map]
    exact hDistinct
  obtain ⟨⟨p, l⟩, hEmit⟩ := hAccepted.emits_from t.labels
  obtain ⟨hImplements, _⟩ := Script.emit_implements hValid hEmit
  have hRun : t.emit = .ok ({ t with labels := l }, some p) := by
    refine emit_of_script ?_ ?_
    · rw [hSame]
      exact hFailed
    · rw [hSame]
      exact hEmit
  refine ⟨_, p, hRun, (Script.emit_numbers hValid hEmit).distinct hKeys, hKeys, hImplements.mono ?_⟩
  intro r hr body hBody
  obtain ⟨_, _, hAnalyzed⟩ := hAccepted.routines r hr
  obtain ⟨_, b, _, hBlock, _, hSound⟩ := hAnalyzed.body
  exact hSound.labelled (fun _ hOffers => hOffers.kind_ne_label) hBlock hBody

/-- The script of the example, emitted for the second time. -/
theorem emit_labels_again : ∃ s t p, (start .sample ⟨[]⟩ false).analyze = .ok s ∧ s.failed = false ∧
    s.emit = .ok (t, some p) ∧ ∃ t' q, t.emit = .ok (t', some q) ∧
      (q.bodies.flatMap fun b => labelsOf b.code).Nodup ∧ (s.script.labels.map Symbol.key).Nodup ∧
      q.Implements (Routine.Labelled t'.labels) s.script := by
  obtain ⟨s, hAnalyze, hFailed⟩ := sample_analyzes
  obtain ⟨t, p, hEmit, _⟩ := emit_labels hAnalyze hFailed .now
  exact ⟨s, t, p, hAnalyze, hFailed, hEmit, emit_labels hAnalyze hFailed (.emit .now hEmit)⟩

end Session
end Lsl
