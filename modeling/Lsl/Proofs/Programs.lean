import Lsl.Proofs.Labels
import Lsl.Proofs.TwinCode

/-! The program of an accepted script. It always exists, its functions stand in the order of the
script, and each of its bodies is the code of the routine in that place. -/
namespace Lsl

open List

variable {sym : Symbol} {R S : Routine → Body → Prop} {placed : List Nat} {constants : Constants}

variable {e : Surroundings} {result : Ty} {params : List Param} {b : Block} {body : Body} {l l' : Labels}
  {r : Routine} {c : StateCode} {α β : Type} {f : Function} {p : Program} {Top : Symbol → Prop}
    {round : Nat}

def Surroundings.finish (e : Surroundings) (code : List Instr) : List Instr :=
  if endsInReturn code then code else code ++ e.exit

/-- The body of a routine is the code of its statements inside a frame. -/
theorem emitBody_eq :
    emitBody e result (some sym) params (some b) l = .ok (body, l') ↔
      ∃ code, Stmt.codeAll (e.enter result sym params b) b.stmts l = .ok (code, l') ∧
        body = { result, params := paramSlots params, locals := Stmt.localsAll b.stmts
                 code := (e.enter result sym params b).finish
                   (.enterFrame (Ty.frameSize ((Stmt.localsAll b.stmts).map (·.ty))) :: code) } := by
  simp only [emitBody, emits_bind_eq, emits_lift_eq, emits_pure_eq, need_eq_ok, Option.some.injEq, and_assoc,
    exists_and_left, exists_eq_left', exists_eq_right_right, @eq_comm _ body]
  rfl

theorem emitBody_eq_ok {entry : Option Symbol} {b : Option Block}
    (h : emitBody e result entry params b l = .ok (body, l')) :
    ∃ sym block, entry = some sym ∧ b = some block ∧
      emitBody e result (some sym) params (some block) l = .ok (body, l') := by
  cases b with
  | none => cases h
  | some block =>
    cases entry with
    | none => cases h
    | some sym => exact ⟨sym, block, rfl, rfl, h⟩

theorem emitBody_grows {entry : Option Symbol} {b : Option Block} (hl : l.Valid)
    (h : emitBody e result entry params b l = .ok (body, l')) : l'.Valid ∧ l.Grows l' := by
  obtain ⟨sym, block, rfl, rfl, h⟩ := emitBody_eq_ok h
  obtain ⟨code, hCode, _⟩ := emitBody_eq.mp h
  have hNumbers := Stmt.codeAll_numbers hl hCode
  exact ⟨hNumbers.valid, hNumbers.grows⟩

def Routine.Emits (e : Surroundings) (r : Routine) (body : Body) : Prop :=
  ∃ l l', l.Valid ∧ emitBody e r.result r.entry r.params r.body l = .ok (body, l')

def Routine.EmitsBy (e : Surroundings) (last : Labels) (r : Routine) (body : Body) : Prop :=
  ∃ l l', l.Valid ∧ emitBody e r.result r.entry r.params r.body l = .ok (body, l') ∧ l'.Grows last

theorem Routine.EmitsBy.emits {last : Labels} (h : r.EmitsBy e last body) : r.Emits e body := by
  obtain ⟨l, l', hl, hBody, _⟩ := h
  exact ⟨l, l', hl, hBody⟩

theorem Routine.EmitsBy.later (h : r.EmitsBy e l body) (hGrows : l.Grows l') : r.EmitsBy e l' body := by
  obtain ⟨k, k', hk, hBody, hLater⟩ := h
  exact ⟨k, k', hk, hBody, hLater.trans hGrows⟩

def HandlerCode.Implements (R : Routine → Body → Prop) (h : Option Handler) (c : HandlerCode) :
    Prop :=
  ∃ g, h = some g ∧ c.kind = g.kind ∧ R g.routine c.body

/-- The code of a state, whose handlers may stand in another order. -/
def StateCode.Implements (R : Routine → Body → Prop) (s : Option State) (c : StateCode) : Prop :=
  ∃ t hs, s = some t ∧ c.name = t.name ∧ c.events.Perm hs ∧
    Forall₂ (HandlerCode.Implements R) t.events hs

theorem StateCode.Implements.imp {s : Option State} (h : c.Implements R s)
    (hImp : ∀ r body, R r body → S r body) : c.Implements S s := by
  obtain ⟨t, hs, rfl, hName, hPerm, hEvents⟩ := h
  refine ⟨t, hs, rfl, hName, hPerm, hEvents.imp ?_⟩
  rintro _ k ⟨g, rfl, hKind, hBody⟩
  exact ⟨g, rfl, hKind, hImp _ _ hBody⟩

/-- A program holds a body for each routine of a script, under the name that it has there, and no
others. -/
structure Program.Implements (R : Routine → Body → Prop) (s : Script) (p : Program) : Prop where
  functions : Forall₂ (fun f c => c.name = f.name ∧ R f.routine c.body) s.functions p.functions
  states : Forall₂ (StateCode.Implements R) s.states p.states

/-- What holds of related elements holds along two related lists. -/
theorem forall₂_imp_mem {R S : α → β → Prop} {as : List α} {bs : List β} (h : Forall₂ R as bs)
    (hImp : ∀ a ∈ as, ∀ b, R a b → S a b) : Forall₂ S as bs := by
  induction h with
  | nil => exact .nil
  | cons hHead _ ih =>
    exact .cons (hImp _ (by simp) _ hHead) (ih fun a ha => hImp a (by simp [ha]))

theorem Script.mem_routines {s : Script} : r ∈ s.routines ↔
    (∃ f ∈ s.functions, f.routine = r) ∨
      ∃ st, some st ∈ s.states ∧ ∃ h, some h ∈ st.events ∧ h.routine = r := by
  simp only [routines, mem_append, mem_flatMap]
  refine or_congr ⟨?_, ?_⟩ ⟨?_, ?_⟩
  · rintro ⟨g, hg, hr⟩
    cases g with
    | function f => exact ⟨f, mem_functions.mpr hg, (List.mem_singleton.mp hr).symm⟩
    | _ => cases hr
  · rintro ⟨f, hf, rfl⟩
    exact ⟨_, mem_functions.mp hf, mem_singleton_self _⟩
  · rintro ⟨st, hst, hr⟩
    cases st with
    | none => cases hr
    | some st =>
      obtain ⟨h, hh, hr⟩ := List.mem_flatMap.mp hr
      cases h with
      | none => cases hr
      | some h => exact ⟨st, hst, h, hh, (List.mem_singleton.mp hr).symm⟩
  · rintro ⟨st, hst, h, hh, rfl⟩
    exact ⟨_, hst, List.mem_flatMap.mpr ⟨_, hh, mem_singleton_self _⟩⟩

theorem Script.mem_routines_function {s : Script} (h : f ∈ s.functions) : f.routine ∈ s.routines :=
  mem_routines.mpr (Or.inl ⟨f, h, rfl⟩)

theorem Script.mem_routines_handler {s : Script} {st : State} {h : Handler} (hst : some st ∈ s.states)
    (hh : some h ∈ st.events) : h.routine ∈ s.routines :=
  mem_routines.mpr (Or.inr ⟨st, hst, h, hh, rfl⟩)

/-- What holds of the body of each routine holds throughout the program. -/
theorem Program.Implements.mono {s : Script} (h : p.Implements R s)
    (hImp : ∀ r ∈ s.routines, ∀ body, R r body → S r body) :
    p.Implements S s where
  functions := forall₂_imp_mem h.functions fun f hf c ⟨hName, hBody⟩ =>
    ⟨hName, hImp _ (Script.mem_routines_function hf) _ hBody⟩
  states := by
    refine forall₂_imp_mem h.states ?_
    rintro _ hMem c ⟨t, hs, rfl, hName, hPerm, hEvents⟩
    refine ⟨t, hs, rfl, hName, hPerm, forall₂_imp_mem hEvents ?_⟩
    rintro _ hHandler k ⟨g, rfl, hKind, hBody⟩
    exact ⟨g, rfl, hKind, hImp _ (Script.mem_routines_handler hMem hHandler) _ hBody⟩

/-- What holds of each body of a program. -/
structure Program.Bodies (P : Body → Prop) (p : Program) : Prop where
  functions : ∀ f ∈ p.functions, P f.body
  handlers : ∀ s ∈ p.states, ∀ h ∈ s.events, P h.body

theorem Program.Implements.bodies {P : Body → Prop} {s : Script} (h : p.Implements (fun _ => P) s) :
    p.Bodies P where
  functions := fun f hf => by
    obtain ⟨_, _, _, hBody⟩ := exists_of_mem_right h.functions hf
    exact hBody
  handlers := fun st hst k hk => by
    obtain ⟨_, _, t, hs, _, _, hPerm, hEvents⟩ := exists_of_mem_right h.states hst
    obtain ⟨_, _, _, _, _, hBody⟩ := exists_of_mem_right hEvents (hPerm.mem_iff.mp hk)
    exact hBody

theorem emits_mapM_cons {f : α → Emits β} {a : α} {as : List α} {bs : List β} :
    (a :: as).mapM f l = .ok (bs, l') ↔
      ∃ b l₁ rest, f a l = .ok (b, l₁) ∧ as.mapM f l₁ = .ok (rest, l') ∧ b :: rest = bs := by
  simp only [mapM_cons, emits_bind_eq, emits_pure_eq]
  grind

theorem emits_mapM_succeeds {f : α → Emits β} {as : List α}
    (h : ∀ a ∈ as, ∀ l, ∃ r, f a l = .ok r)
    (l : Labels) : ∃ r, as.mapM f l = .ok r := by
  induction as generalizing l with
  | nil => exact ⟨_, rfl⟩
  | cons a as ih =>
    obtain ⟨⟨b, l₁⟩, hb⟩ := h a (by simp) l
    obtain ⟨⟨bs, l₂⟩, hbs⟩ := ih (fun x hx => h x (by simp [hx])) l₁
    exact ⟨_, emits_mapM_cons.mpr ⟨b, l₁, bs, hb, hbs, rfl⟩⟩

theorem emits_mapM_forall₂ {f : α → Emits β} {as : List α} {bs : List β}
    (h : as.mapM f l = .ok (bs, l')) :
    Forall₂ (fun a b => ∃ l l', f a l = .ok (b, l')) as bs := by
  induction as generalizing l bs with
  | nil =>
    cases h
    exact .nil
  | cons a as ih =>
    obtain ⟨b, l₁, bs, hb, hbs, rfl⟩ := emits_mapM_cons.mp h
    exact .cons ⟨l, l₁, hb⟩ (ih hbs)

/-- Steps along a list, where each gives out more numbers of labels. -/
theorem emits_mapM_grows {f : α → Emits β} {as : List α} {bs : List β}
    (hStep : ∀ a b l l', l.Valid → f a l = .ok (b, l') → l'.Valid ∧ l.Grows l') (hl : l.Valid)
    (h : as.mapM f l = .ok (bs, l')) :
    Forall₂ (fun a b => ∃ k k', k.Valid ∧ f a k = .ok (b, k') ∧ k'.Grows l') as bs ∧
      l'.Valid ∧ l.Grows l' := by
  induction as generalizing l bs with
  | nil =>
    cases h
    exact ⟨.nil, hl, Labels.Grows.refl _⟩
  | cons a as ih =>
    obtain ⟨b, l₁, bs, hb, hbs, rfl⟩ := emits_mapM_cons.mp h
    obtain ⟨hValid, hGrows⟩ := hStep a b l l₁ hl hb
    obtain ⟨hRest, hLast, hLater⟩ := ih hValid hbs
    exact ⟨.cons ⟨l, l₁, hl, hb, hLater⟩ hRest, hLast, hGrows.trans hLater⟩

namespace Script

theorem emitFunction_eq {c : FunctionCode} :
    emitFunction e f l = .ok (c, l') ↔ ∃ sym body, f.entry = some sym ∧
      emitBody e f.result f.entry f.params f.body l = .ok (body, l') ∧
      c = ⟨f.name, e.index sym, body⟩ := by
  simp only [emitFunction, emits_bind_eq, emits_lift_eq, emits_pure_eq, need_eq_ok, and_assoc,
    exists_and_left, exists_eq_left', exists_eq_right_right, @eq_comm _ c]

theorem emitHandler_eq {h : Option Handler} {c : HandlerCode} :
    emitHandler e h l = .ok (c, l') ↔ ∃ g body, h = some g ∧
      emitBody e .void g.entry g.params g.body l = .ok (body, l') ∧ c = ⟨g.kind, body⟩ := by
  simp only [emitHandler, emits_bind_eq, emits_lift_eq, emits_pure_eq, need_eq_ok, and_assoc, exists_and_left,
    exists_eq_left', exists_eq_right_right, @eq_comm _ c]

theorem emitState_eq {s : Option State} :
    emitState e s l = .ok (c, l') ↔ ∃ t sym events, s = some t ∧ t.entry = some sym ∧
      t.events.mapM (emitHandler e) l = .ok (events, l') ∧
      c = ⟨t.name, e.index sym, events.mergeSort fun a b => a.kind.code ≤ b.kind.code⟩ := by
  simp only [emitState, emits_bind_eq, emits_lift_eq, emits_pure_eq, need_eq_ok, and_assoc, exists_and_left,
    exists_eq_left', exists_eq_right_right, @eq_comm _ c]

/-- Functions are emitted before states. -/
theorem emit_eq {s : Script} :
    s.emit placed constants l = .ok (p, l') ↔ ∃ globals functions states l₁,
      emitGlobals (s.surroundings placed constants) s.globalVars = .ok globals ∧
      s.functions.mapM (emitFunction (s.surroundings placed constants)) l = .ok (functions, l₁) ∧
      s.states.mapM (emitState (s.surroundings placed constants)) l₁ = .ok (states, l') ∧
      p = ⟨globals, functions, states⟩ := by
  simp only [emit, emits_bind_eq, emits_lift_eq, emits_pure_eq, and_assoc, exists_and_left, exists_eq_left',
    exists_eq_right_right, @eq_comm _ p]
  constructor
  · rintro ⟨globals, hGlobals, functions, l₁, hFunctions, states, hStates, hp⟩
    exact ⟨globals, hGlobals, functions, states, l₁, hFunctions, hStates, hp⟩
  · rintro ⟨globals, hGlobals, functions, states, l₁, hFunctions, hStates, hp⟩
    exact ⟨globals, hGlobals, functions, l₁, hFunctions, states, hStates, hp⟩

theorem emitState_implements {s : Option State} (hl : l.Valid) (h : emitState e s l = .ok (c, l')) :
    c.Implements (Routine.EmitsBy e l') s ∧ l'.Valid ∧ l.Grows l' := by
  obtain ⟨t, _, events, rfl, _, hEvents, rfl⟩ := emitState_eq.mp h
  have hStep : ∀ h k l l', Labels.Valid l → emitHandler e h l = .ok (k, l') → l'.Valid ∧
    l.Grows l' := by
    intro h k l l' hl hk
    obtain ⟨g, _, _, hBody, _⟩ := emitHandler_eq.mp hk
    exact emitBody_grows hl hBody
  obtain ⟨hHandlers, hLast⟩ := emits_mapM_grows hStep hl hEvents
  refine ⟨⟨t, events, rfl, rfl, mergeSort_perm _ _, hHandlers.imp ?_⟩, hLast⟩
  rintro h k ⟨l, l', hl, hk, hLater⟩
  obtain ⟨g, body, rfl, hBody, rfl⟩ := emitHandler_eq.mp hk
  exact ⟨g, rfl, rfl, l, l', hl, hBody, hLater⟩

/-- The bodies of an emitted program are those of the script's routines. -/
theorem emit_implements {s : Script} (hl : l.Valid) (h : s.emit placed constants l = .ok (p, l')) :
    p.Implements (Routine.EmitsBy (s.surroundings placed constants) l') s ∧ l'.Valid ∧ l.Grows l' := by
  obtain ⟨globals, functions, states, l₁, _, hFunctions, hStates, rfl⟩ := emit_eq.mp h
  have hStep : ∀ f c l l', Labels.Valid l →
      emitFunction (s.surroundings placed constants) f l = .ok (c, l') → l'.Valid ∧ l.Grows l' := by
    intro f c l l' hl hc
    obtain ⟨_, _, _, hBody, _⟩ := emitFunction_eq.mp hc
    exact emitBody_grows hl hBody
  obtain ⟨hBodies, hl₁, hFirst⟩ := emits_mapM_grows hStep hl hFunctions
  obtain ⟨hHandlers, hLast, hSecond⟩ :=
    emits_mapM_grows (fun _ _ _ _ hl hc => (emitState_implements hl hc).2) hl₁ hStates
  refine ⟨⟨hBodies.imp ?_, hHandlers.imp ?_⟩, hLast, hFirst.trans hSecond⟩
  · rintro f c ⟨l, l', hl, hc, hLater⟩
    obtain ⟨_, body, _, hBody, rfl⟩ := emitFunction_eq.mp hc
    exact ⟨rfl, l, l', hl, hBody, hLater.trans hSecond⟩
  · rintro st c ⟨l, l', hl, hc, hLater⟩
    exact (emitState_implements hl hc).1.imp fun _ _ hBody => hBody.later hLater

theorem forM_eq_ok {f : α → Except Fault Unit} {as : List α} (h : as.forM f = .ok ()) :
    ∀ a ∈ as, f a = .ok () := by
  induction as with
  | nil => simp
  | cons a as ih =>
    obtain ⟨_, ha, has⟩ := bind_eq_ok.mp h
    simpa using ⟨ha, ih has⟩

/-- Where all entries are required, every variable and every state has its symbol. -/
theorem requireEntries_eq_ok {s : Script} (h : s.requireEntries = .ok ()) :
    (∀ v ∈ s.globalVars, ∃ sym, v.entry = some sym) ∧
    ∀ st ∈ s.states, ∃ t sym, st = some t ∧ t.entry = some sym ∧ ∀ h ∈ t.events, ∃ g,
      h = some g := by
  simp only [requireEntries, bind_eq_ok] at h
  obtain ⟨_, hGlobals, hStates⟩ := h
  constructor
  · intro v hv
    have hRequire := forM_eq_ok hGlobals _ (mem_globalVars.mp hv)
    simp only [requireGlobal, bind_eq_ok, need_eq_ok] at hRequire
    exact ⟨_, hRequire.choose_spec.1⟩
  · intro st hst
    have hRequire := forM_eq_ok hStates _ hst
    simp only [requireState, bind_eq_ok, need_eq_ok] at hRequire
    obtain ⟨t, rfl, sym, hSym, hEvents⟩ := hRequire
    refine ⟨t, sym, rfl, hSym, fun h hh => ?_⟩
    have hHandler := forM_eq_ok hEvents _ hh
    simp only [requireHandler, bind_eq_ok, need_eq_ok] at hHandler
    exact ⟨_, hHandler.choose_spec.1⟩

theorem emitGlobals_succeeds {e : Surroundings} {vs : List GlobalVar}
    (h : ∀ v ∈ vs, ∃ sym, v.entry = some sym) : ∃ ds, emitGlobals e vs = .ok ds := by
  induction vs with
  | nil => exact ⟨[], rfl⟩
  | cons v vs ih =>
    obtain ⟨sym, hSym⟩ := h v (by simp)
    obtain ⟨ds, hds⟩ := ih fun w hw => h w (by simp [hw])
    simp only [emitGlobals, hSym, Fault.need, ok_bind, hds, pure_ok]
    exact ⟨_, rfl⟩

end Script

namespace Routine

/-- A sound routine leaves its statements ready for emission. -/
theorem Sound.ready (h : r.Sound Top round b) : ∀ s ∈ b.stmts, Stmt.Ready r.result s := by
  intro s hs
  refine ⟨fun x hx => h.typed.exprs x (Stmt.mem_exprsAll.mpr ⟨s, hs, hx⟩),
    fun t ht => h.typed.stmts t (Stmt.mem_partsAll.mpr ⟨s, hs, ht⟩), fun n hn => ?_⟩
  have hMem := Stmt.mem_notesAll.mpr ⟨s, hs, hn⟩
  cases n with
  | declares kind ty entry =>
    obtain ⟨sym, rfl, _⟩ := h.made kind ty entry (mem_append_right _ hMem)
    rfl
  | uses want entry =>
    obtain ⟨sym, rfl, _⟩ := h.used want entry hMem
    rfl

theorem Sound.expr (h : r.Sound Top round b) {x : Expr} (hx : x ∈ Stmt.exprsAll b.stmts) :
    x.isMissing = false ∧ x.WellTyped := by
  obtain ⟨s, hs, hx⟩ := Stmt.mem_exprsAll.mp hx
  obtain ⟨hPresent, hParts, _⟩ := Stmt.of_mem_exprs hx
  exact ⟨hPresent, fun y hy => (h.ready s hs).exprs y (hParts hy)⟩

/-- The body of a sound routine is the code of its statements inside a frame. -/
theorem Sound.emits (h : r.Sound Top round b) (hBlock : r.body = some b) (hEmits : r.Emits e body) :
    ∃ sym l l' c, r.entry = some sym ∧ sym.round = round ∧ l.Valid ∧
      Stmt.codeAll (e.enter r.result sym r.params b) b.stmts l = .ok (c, l') ∧
      body = { result := r.result, params := paramSlots r.params, locals := Stmt.localsAll b.stmts
               code := (e.enter r.result sym r.params b).finish
                 (.enterFrame (Ty.frameSize ((Stmt.localsAll b.stmts).map (·.ty))) :: c) } := by
  obtain ⟨sym, hEntry, hRound⟩ := h.entry
  obtain ⟨l, l', hl, hBody⟩ := hEmits
  rw [hEntry, hBlock] at hBody
  obtain ⟨c, hCode, hEq⟩ := emitBody_eq.mp hBody
  exact ⟨sym, l, l', c, hEntry, hRound, hl, hCode, hEq⟩

def Emittable (r : Routine) : Prop :=
  (∃ sym, r.entry = some sym) ∧ ∀ e l, ∃ x, emitBody e r.result r.entry r.params r.body l = .ok x

/-- A routine whose statements are ready for emission can be emitted. -/
theorem emittable_of_ready (hEntry : r.entry = some sym) (hBody : r.body = some b)
    (hReady : ∀ s ∈ b.stmts, Stmt.Ready r.result s) : r.Emittable := by
  refine ⟨⟨sym, hEntry⟩, fun e l => ?_⟩
  obtain ⟨⟨code, l'⟩, hCode⟩ := Stmt.codeAll_succeeds (e.enter r.result sym r.params b) hReady l
  rw [hBody, hEntry]
  exact ⟨_, emitBody_eq.mpr ⟨code, hCode, rfl⟩⟩

theorem Analyzed.emittable {r₀ : Routine} (h : Analyzed Top round r₀ r) : r.Emittable := by
  obtain ⟨_, b, _, hBody, _, hSound⟩ := h.body
  obtain ⟨sym, hEntry, _⟩ := hSound.entry
  exact emittable_of_ready hEntry hBody hSound.ready

end Routine

namespace Script

variable {s : Script}

theorem emitFunction_succeeds (h : f.routine.Emittable) (e : Surroundings) (l : Labels) :
    ∃ x, emitFunction e f l = .ok x := by
  obtain ⟨⟨sym, hEntry⟩, hBody⟩ := h
  obtain ⟨⟨body, l'⟩, hBody⟩ := hBody e l
  exact ⟨_, emitFunction_eq.mpr ⟨sym, body, hEntry, hBody, rfl⟩⟩

theorem emitState_succeeds (hRequired : s.requireEntries = .ok ())
    (hRoutines : ∀ r ∈ s.routines, r.Emittable) {st : Option State} (hst : st ∈ s.states)
    (e : Surroundings) (l : Labels) : ∃ x, emitState e st l = .ok x := by
  obtain ⟨t, sym, rfl, hSym, hHandlers⟩ := (requireEntries_eq_ok hRequired).2 st hst
  obtain ⟨⟨events, l'⟩, hEvents⟩ : ∃ x, t.events.mapM (emitHandler e) l = .ok x := by
    refine emits_mapM_succeeds (fun g hg l => ?_) l
    obtain ⟨g, rfl⟩ := hHandlers g hg
    obtain ⟨⟨body, l'⟩, hBody⟩ := (hRoutines _ (mem_routines_handler hst hg)).2 e l
    exact ⟨_, emitHandler_eq.mpr ⟨g, body, rfl, hBody, rfl⟩⟩
  exact ⟨_, emitState_eq.mpr ⟨t, sym, events, rfl, hSym, hEvents, rfl⟩⟩

/-- A script all of whose entries are there and whose routines can be emitted has a program, whatever has
places and whatever numbers of labels have been given out before. -/
theorem emit_succeeds (hRequired : s.requireEntries = .ok ()) (hRoutines : ∀ r ∈ s.routines, r.Emittable)
    (placed : List Nat) (constants : Constants) (l : Labels) :
    ∃ x, s.emit placed constants l = .ok x := by
  obtain ⟨globals, hGlobals⟩ := @emitGlobals_succeeds (s.surroundings placed constants) _
    (requireEntries_eq_ok hRequired).1
  obtain ⟨⟨functions, l₁⟩, hFunctions⟩ := emits_mapM_succeeds
    (fun f hf => emitFunction_succeeds (hRoutines _ (mem_routines_function hf))
      (s.surroundings placed constants)) l
  obtain ⟨⟨states, l₂⟩, hStates⟩ := emits_mapM_succeeds
    (fun st hst => emitState_succeeds hRequired hRoutines hst (s.surroundings placed constants)) l₁
  exact ⟨_, emit_eq.mpr ⟨globals, functions, states, l₁, hGlobals, hFunctions, hStates, rfl⟩⟩

end Script

namespace Session

variable {script : Script} {library : Library} {privileged : Bool} {s : Session}

/-- What the code of all bodies of the session's script depends on. -/
def surroundings (s : Session) : Surroundings := s.script.surroundings s.placed s.constants

theorem Accepted.emittable (h : Accepted script library privileged s) (hr : r ∈ s.script.routines) :
    r.Emittable := by
  obtain ⟨_, _, hAnalyzed⟩ := h.routines r hr
  exact hAnalyzed.emittable

theorem Accepted.entry (h : Accepted script library privileged s) (hr : r ∈ s.script.routines) :
    ∃ sym, r.entry = some sym := (h.emittable hr).1

/-- Without errors, the program of a session is that of its script. -/
theorem emit_of_script (hFailed : s.failed = false)
    (h : s.script.emit s.placed s.constants s.labels = .ok (p, l)) :
    s.emit = .ok ({ s with labels := l }, some p) := by
  simp only [emit, hFailed, Bool.false_eq_true, if_false, StateT.run, h, ok_bind, pure_ok]

theorem emit_eq_ok {s' : Session} (h : s.emit = .ok (s', some p)) : s.failed = false ∧
    ∃ l, s.script.emit s.placed s.constants s.labels = .ok (p, l) ∧ s' = { s with labels := l } := by
  unfold emit at h
  split at h
  · cases h
  · next hFailed =>
    simp only [bind_eq_ok, pure_eq_ok, Prod.mk.injEq, Option.some.injEq] at h
    obtain ⟨⟨q, l⟩, hRun, rfl, rfl⟩ := h
    exact ⟨by simpa using hFailed, l, hRun, rfl⟩

/-- An accepted script has a program, whatever numbers of labels have been given out before. -/
theorem Accepted.emits_from (h : Accepted script library privileged s) (l : Labels) :
    ∃ x, s.script.emit s.placed s.constants l = .ok x :=
  Script.emit_succeeds h.required (fun _ => h.emittable) s.placed s.constants l

/-- The bodies of the program of an accepted script are the code of its routines. -/
theorem Accepted.emits (h : Accepted script library privileged s) :
    ∃ s' p, s.emit = .ok (s', some p) ∧ p.Implements (Routine.Emits s.surroundings) s.script := by
  obtain ⟨⟨p, l⟩, hEmit⟩ := h.emits_from s.labels
  obtain ⟨hImplements, _⟩ := Script.emit_implements (h.labels ▸ Labels.valid_empty) hEmit
  exact ⟨_, p, emit_of_script h.failed hEmit, hImplements.mono fun _ _ _ hBody => hBody.emits⟩

/-- What holds of every body of an analysed routine holds throughout the program. -/
theorem Accepted.emits_all {R : Routine → Body → Prop} (h : Accepted script library privileged s)
    (hBodies : ∀ r₀ ∈ script.routines, ∀ r body,
      Routine.Analyzed (script.Offers (library.visible privileged) 1) 1 r₀ r →
      r.Emits s.surroundings body → R r body) :
    ∃ s' p, s.emit = .ok (s', some p) ∧ p.Implements R s.script := by
  obtain ⟨s', p, hEmit, hProgram⟩ := h.emits
  refine ⟨s', p, hEmit, hProgram.mono fun r hr body hEmits => ?_⟩
  obtain ⟨r₀, hr₀, hAnalyzed⟩ := h.routines r hr
  exact hBodies r₀ hr₀ r body hAnalyzed hEmits

end Session
end Lsl
