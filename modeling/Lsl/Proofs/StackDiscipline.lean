import Lsl.Proofs.CallFrames

/-! The stack discipline of emitted bodies. Statements start and end with an empty stack, so that it
is empty at every label and at every branch, and a return is reached only through the removal of the
whole frame. -/
namespace Lsl

open List

variable {kind : SymbolKind} {entry : Option Symbol} {c : List Instr} {e : Surroundings}
  {visible : List LibraryFunction} {s : Script} {round : Nat}

variable {st st' : List Cell} {x : Expr} {ty : Ty} {r : Routine} {b : Block}

/-- Every return of the code comes right after the removal of the given variables, with at most a
change of state in between. -/
def Unwound (types : List Ty) (c : List Instr) : Prop :=
  ∀ pre post, c = pre ++ .ret :: post → ∃ before, pre = before ++ [.unwind types] ∨
    ∃ i name, pre = before ++ [.unwind types, .state i name]

namespace Unwound

variable {types : List Ty} {c' : List Instr}

theorem of_not_mem (h : .ret ∉ c) : Unwound types c := by
  intro pre post hEq
  exact absurd (by simp [hEq]) h

theorem of_straight (h : Straight c) : Unwound types c :=
  of_not_mem fun hMem => by cases h _ hMem

theorem append (h : Unwound types c) (h' : Unwound types c') : Unwound types (c ++ c') := by
  intro pre post hEq
  rcases List.append_eq_append_iff.mp hEq with ⟨as, rfl, hRight⟩ | ⟨bs, rfl, hRight⟩
  · obtain ⟨before, hBefore⟩ := h' as post hRight
    refine ⟨c ++ before, ?_⟩
    rcases hBefore with rfl | ⟨i, name, rfl⟩
    · exact Or.inl (by simp)
    · exact Or.inr ⟨i, name, by simp⟩
  · cases bs with
    | nil =>
      obtain ⟨before, hBefore⟩ := h' [] post hRight.symm
      simp at hBefore
    | cons i bs =>
      cases hRight
      exact h pre bs rfl

theorem exit (e : Surroundings) : Unwound e.unwind e.exit := by
  intro pre post hEq
  match pre, hEq with
  | [.unwind _], hEq => cases hEq; exact ⟨[], Or.inl rfl⟩
  | _ :: _ :: _, hEq => simp [Surroundings.exit] at hEq

theorem goto (e : Surroundings) (i : Int) (name : String) :
    Unwound e.unwind [.unwind e.unwind, .state i name, .ret] := by
  intro pre post hEq
  match pre, hEq with
  | [.unwind _, .state _ _], hEq => cases hEq; exact ⟨[], Or.inr ⟨i, name, rfl⟩⟩
  | _ :: _ :: _ :: _, hEq => simp at hEq

end Unwound

/-- Code of statements: it starts and ends with an empty stack, and all its returns remove the
frame. -/
structure Settles (e : Surroundings) (c : List Instr) : Prop where
  leads : Leads e.result c [] []
  unwound : Unwound e.unwind c

namespace Settles

variable {c' : List Instr}

theorem nil : Settles e [] := ⟨Leads.nil, Unwound.of_not_mem (by simp)⟩

theorem append (h : Settles e c) (h' : Settles e c') : Settles e (c ++ c') :=
  ⟨h.leads.append h'.leads, h.unwound.append h'.unwound⟩

theorem of_straight (h : Leads e.result c [] []) (hStraight : Straight c) : Settles e c :=
  ⟨h, Unwound.of_straight hStraight⟩

theorem label (n : Label) : Settles e [.label n] := ⟨rfl, Unwound.of_not_mem (by simp)⟩

theorem jump (n : Label) : Settles e [.jump n] := ⟨rfl, Unwound.of_not_mem (by simp)⟩

theorem exit : Settles e e.exit := ⟨rfl, Unwound.exit e⟩

theorem branch {t : Ty} {i : Instr} (hStraight : Straight c)
    (h : ∀ st, Leads e.result c st (pushed t st)) (hValue : t ≠ .void)
    (hi : i.effect? e.result [.value t] = some []) (hRet : i ≠ .ret) : Settles e (c ++ [i]) := by
  have hFirst := h []
  rw [pushed_value hValue] at hFirst
  refine ⟨hFirst.append (Leads.single hi), (Unwound.of_straight hStraight).append ?_⟩
  exact Unwound.of_not_mem (by simpa using hRet.symm)

end Settles

/-- The stack that an instruction of control flow asks for. -/
def Instr.rests? : Instr → Option (List Cell)
  | .label _ | .jump _ | .enterFrame _ | .unwind _ | .ret | .state .. => some []
  | .jumpIf t _ | .jumpNot t _ => some [.value t]
  | _ => none

theorem onEmpty?_eq_some (h : onEmpty? st = some st') : st = [] := by
  cases st with
  | nil => rfl
  | cons c st => cases h

theorem take?_eq_some {t : Ty} (h : take? t st = some st') : st = .value t :: st' := by
  match st, h with
  | .value s :: rest, h =>
    obtain ⟨rfl, hRest⟩ := Option.ite_none_right_eq_some.mp h
    cases hRest
    rfl

/-- Where control flows in code that leads somewhere, the stack is the one that is asked for. -/
theorem Leads.rests {result : Ty} {pre post : List Instr} {i : Instr} {asked : List Cell}
    (h : Leads result (pre ++ i :: post) st st') (hAsked : i.rests? = some asked) :
    Leads result pre st asked := by
  obtain ⟨st₁, hPre, hRest⟩ := h.split
  unfold Leads effects? at hRest
  obtain ⟨st₂, hi, _⟩ := Option.bind_eq_some_iff.mp hRest
  obtain rfl : st₁ = asked := by
    cases i with
    | label n | jump n | enterFrame n | unwind ts | ret | state n name =>
      cases hAsked
      exact onEmpty?_eq_some hi
    | jumpIf t n | jumpNot t n =>
      cases hAsked
      obtain ⟨st₃, hTake, hEmpty⟩ := Option.bind_eq_some_iff.mp hi
      rw [take?_eq_some hTake, onEmpty?_eq_some hEmpty]
    | _ => cases hAsked
  exact hPre

namespace Stmt

def Valued (s : Stmt) : Prop := ∀ n ∈ s.notes, n.Valued

theorem Valued.expr {s : Stmt} (h : s.Valued) (hPresent : x.isMissing = false)
    (hParts : x.parts ⊆ s.exprs) : x.Valued := by
  obtain ⟨_, _, hNotes⟩ := of_mem_exprs (hParts (Expr.mem_parts_self hPresent))
  exact fun n hn => h n (hNotes hn)

/-- A declaration stores the value with which its variable starts. -/
theorem decl_settles {offset : Int32} (hTyped : x.WellTyped) (hValued : x.Valued) (hTy : ty.isValue = true)
    (hInit : x.isMissing = true ∨ Ty.coercible ty x.ty = true) (h : initCode e ty x = .ok c) :
    Settles e (c ++ [Instr.store false ty offset "" false]) := by
  have hAdds : Adds True [ty] c := by
    rcases x.missing_or_present with rfl | hPresent
    · cases h
      have hPush := @Adds.pushConst True (.zero ty)
      rwa [Value.zero_ty, valueTypes_of_ne (Ty.isValue_iff.mp hTy).2] at hPush
    · obtain ⟨cx, hx, hAdds⟩ := x.code_adds e hPresent hTyped fun _ : True => hValued
      cases (initCode_eq hPresent hx).symm.trans h
      exact Expr.coerced_adds hPresent hTyped (fun _ => hValued) (by simpa [hPresent] using hInit) hAdds
  refine Settles.of_straight ((hAdds.leads e.result []).append (Leads.single (by simp [Instr.effect?]))) ?_
  exact (initCode_straight h).append (Straight.single rfl)

theorem ret_settles (hTyped : x.WellTyped) (hValued : x.Valued)
    (hReturn : x.isMissing = true ∨ e.result = .void ∨ Ty.assignable e.result x.ty = true)
    (h : resultCode e x = .ok c) : Settles e (c ++ e.exit) := by
  refine Settles.append ?_ Settles.exit
  by_cases hNone : x.isMissing = true ∨ e.result = .void
  · cases (resultCode_nil hNone).symm.trans h
    exact Settles.nil
  · simp only [not_or, Bool.not_eq_true] at hNone
    obtain ⟨cx, hx, hAdds⟩ := x.code_adds e hNone.1 hTyped fun _ : True => hValued
    have hCoercible : Ty.coercible e.result x.ty = true :=
      Ty.coercible_of_assignable (by simpa [hNone] using hReturn)
    have hValue := Expr.coerced_adds hNone.1 hTyped (fun _ => hValued) hCoercible hAdds
    cases (resultCode_eq hNone.1 hNone.2 hx).symm.trans h
    refine Settles.of_straight ?_ (resultCode_straight h)
    exact (hValue.leads e.result []).append (Leads.single (by simp [Instr.effect?]))

end Stmt

/-- The code of statements keeps the discipline. -/
theorem Pieces.settles {Stmts : Stmt → Prop} (hStmts : ∀ t, Stmts t → Stmt.Ready e.result t ∧
    t.Valued)
    (h : Pieces e Stmts c) : Settles e c := by
  induction h with
  | nil => exact .nil
  | append _ _ ihc ihd => exact ihc.append ihd
  | label _ n => exact .label n
  | jump _ n => exact .jump n
  | @discard s x c hStmt hParts hPresent hCode =>
    obtain ⟨hReady, hValued⟩ := hStmts s hStmt
    obtain ⟨c', hc, hLeads⟩ := @Expr.discard_leads e.result e x hPresent
      (fun y hy => hReady.exprs y (hParts hy)) (hValued.expr hPresent hParts)
    cases hc.symm.trans hCode
    exact .of_straight (hLeads []) (x.discard_straight c hc)
  | @test s x c i hStmt hParts hPresent hValue hCode hBranch =>
    obtain ⟨hReady, hValued⟩ := hStmts s hStmt
    obtain ⟨c', hc, hLeads⟩ := @Expr.code_leads e.result e x hPresent
      (fun y hy => hReady.exprs y (hParts hy)) (hValued.expr hPresent hParts)
    cases hc.symm.trans hCode
    obtain ⟨n, rfl | rfl⟩ := hBranch <;>
      exact .branch (x.code_straight c hc) hLeads hValue (by simp [Instr.effect?, onEmpty?]) (by simp)
  | @initial p name ty x s c hStmt hCode =>
    obtain ⟨hReady, hValued⟩ := hStmts _ hStmt
    obtain ⟨hx, hInit, _⟩ := hReady.decl
    simp only [Stmt.Valued, Stmt.notes, mem_append, mem_singleton, or_imp, forall_and,
      forall_eq] at hValued
    exact Stmt.decl_settles hx hValued.1 hValued.2 hInit hCode
  | result hStmt hCode =>
    obtain ⟨hReady, hValued⟩ := hStmts _ hStmt
    obtain ⟨hx, hReturn⟩ := hReady.ret
    exact Stmt.ret_settles hx hValued hReturn hCode
  | goto => exact ⟨rfl, Unwound.goto e _ _⟩

namespace Stmt

theorem code_settles (s : Stmt) (hReady : Ready e.result s) (hValued : s.Valued) (l : Labels) (c : List Instr)
    (l' : Labels) (h : code e s l = .ok (c, l')) : Settles e c := by
  refine (s.code_pieces (fun t ht => ⟨⟨hReady.part ht, ?_⟩, hReady.stmts t ht⟩) l c l' h).settles
    fun t ht => ht
  obtain ⟨_, _, hNotes⟩ := of_mem_parts ht
  exact fun n hn => hValued n (hNotes hn)

/-- A name declared in a statement is a label or one of its locals. -/
theorem declares_of_mem_notes {s : Stmt} (h : .declares kind ty entry ∈ s.notes) :
    kind = .label ∨ kind = .local ∧ ∃ slot ∈ s.locals, slot.ty = ty := by
  have hExpr := @Expr.not_declares_mem_notes entry kind ty
  have hExprs := @Expr.not_declares_mem_notesAll entry kind ty
  induction s with
  | block p scope ss ih =>
    obtain ⟨s, hs, hn⟩ := mem_notesAll.mp h
    rcases ih s hs hn with hLabel | ⟨hLocal, slot, hSlot, hTy⟩
    · exact Or.inl hLabel
    · exact Or.inr ⟨hLocal, slot, mem_localsAll.mpr ⟨s, hs, hSlot⟩, hTy⟩
  | missing | expr p x | jump p l entry' | ret p x | goto p name entry' | empty p =>
    simp [notes, hExpr] at h
  | decl p name ty' x entry' =>
    simp only [notes, mem_append, mem_singleton, hExpr, false_or] at h
    cases h
    exact Or.inr ⟨rfl, ⟨name, ty⟩, mem_singleton_self _, rfl⟩
  | label p name entry' =>
    cases List.mem_singleton.mp h
    exact Or.inl rfl
  | _ =>
    simp only [notes, mem_append, hExpr, hExprs] at h
    grind [locals]

end Stmt

/-- A script whose variables and parameters have types of values, and whose functions, with those of
the library, have results of the language. -/
structure Script.Valued (visible : List LibraryFunction) (s : Script) : Prop where
  globals : ∀ v ∈ s.globalVars, v.ty.isValue = true
  frames : ∀ r ∈ s.routines, ∀ b ∈ r.body, ∀ t ∈ frameTypes r.params b, t.isValue = true
  functions : ∀ f ∈ s.functions, f.result.isKnown = true
  library : ∀ f ∈ visible, f.result.isKnown = true

namespace Script

variable {sym : Symbol}

/-- A variable that a script offers has a type of values. -/
theorem Valued.isValue (h : s.Valued visible) (hOffers : s.Offers visible round sym)
    (hServes : sym.kind.serves .local = true) : sym.ty.isValue = true := by
  cases hOffers with
  | globalVar i v hMem => exact h.globals v (mem_of_getElem? hMem)
  | event sym hKind => rw [hKind] at hServes; cases hServes
  | _ => cases hServes

/-- A function that a script offers has a result of the language. -/
theorem Valued.isKnown (h : s.Valued visible) (hOffers : s.Offers visible round sym)
    (hServes : sym.kind.serves .function = true) : sym.ty.isKnown = true := by
  cases hOffers with
  | library f hMem => exact h.library f hMem
  | function i f hMem => exact h.functions f (mem_of_getElem? hMem)
  | event sym hKind => rw [hKind] at hServes; cases hServes
  | _ => cases hServes

end Script

namespace Routine

/-- A name declared in the frame of a routine is a label or one of its variables. -/
theorem declares_of_mem_frame (h : .declares kind ty entry ∈ paramNotes r.params ++ Stmt.notesAll b.stmts) :
    kind = .label ∨ kind = .local ∧ ty ∈ frameTypes r.params b := by
  rcases List.mem_append.mp h with h | h
  · obtain ⟨p, hp, hNote⟩ := List.mem_map.mp h
    cases hNote
    exact Or.inr ⟨rfl, mem_append_left _ (mem_map_of_mem hp)⟩
  · obtain ⟨s, hs, hn⟩ := Stmt.mem_notesAll.mp h
    rcases Stmt.declares_of_mem_notes hn with hLabel | ⟨hLocal, slot, hSlot, rfl⟩
    · exact Or.inl hLabel
    · refine Or.inr ⟨hLocal, mem_append_right _ (mem_map_of_mem ?_)⟩
      exact Stmt.mem_localsAll.mpr ⟨s, hs, hSlot⟩

/-- In a routine of a script with types of the language, all names have such types. -/
theorem Sound.valued (h : r.Sound (s.Offers visible round) round b) (hScript : s.Valued visible)
    (hFrame : ∀ t ∈ frameTypes r.params b, t.isValue = true) :
    ∀ n ∈ Stmt.notesAll b.stmts, n.Valued := by
  -- A symbol of the frame serves as a variable only if it is one, and never as a function.
  have hDeclared : ∀ sym ∈ declaredIn (paramNotes r.params ++ Stmt.notesAll b.stmts),
      sym.kind = .label ∨ sym.kind = .local ∧ sym.ty.isValue = true := by
    intro sym hSym
    obtain ⟨kind, ty, hMem⟩ := mem_declaredIn.mp hSym
    obtain ⟨_, hEq, hKind, hTy, _⟩ := h.made kind ty _ hMem
    cases hEq
    rw [hKind, hTy]
    exact (declares_of_mem_frame hMem).imp_right fun ⟨hLocal, hTypes⟩ => ⟨hLocal, hFrame ty hTypes⟩
  intro n hn
  cases n with
  | declares kind ty entry =>
    cases kind with
    | «local» =>
      rcases declares_of_mem_frame (mem_append_right _ hn) with hLabel | ⟨_, hTypes⟩
      · cases hLabel
      · exact hFrame ty hTypes
    | _ => trivial
  | uses want entry =>
    obtain ⟨sym, rfl, hServes, hFrom⟩ := h.used _ _ hn
    cases want with
    | «local» =>
      rcases hFrom with hTop | hSym
      · exact hScript.isValue hTop hServes
      · rcases hDeclared sym hSym with hLabel | ⟨_, hValue⟩
        · rw [hLabel] at hServes
          cases hServes
        · exact hValue
    | function =>
      rcases hFrom with hTop | hSym
      · exact hScript.isKnown hTop hServes
      · rcases hDeclared sym hSym with hKind | ⟨hKind, _⟩ <;>
          (rw [hKind] at hServes; cases hServes)
    | _ => trivial

/-- The discipline of a body that is emitted for a routine. -/
structure Disciplined (outer : Surroundings) (r : Routine) (body : Body) : Prop where
  /-- Every instruction finds its operands, from the empty stack to the empty stack. -/
  leads : Leads body.result body.code [] []
  /-- Nothing else is on the stack where control flows. -/
  rests : ∀ pre i post asked, body.code = pre ++ i :: post → i.rests? = some asked →
    Leads body.result pre [] asked
  /-- A return is reached only after the removal of the locals and parameters. -/
  unwound : Unwound (body.localTypes.reverse ++ body.paramTypes.reverse) body.code
  /-- The code is that of the routine's statements, in which each expression pushes one value of its
  type or is discarded, and each statement leaves the empty stack. -/
  parts : ∃ sym b, r.entry = some sym ∧ r.body = some b ∧
    let e := outer.enter r.result sym r.params b
    (∃ l l' frame c, Stmt.codeAll e b.stmts l = .ok (c, l') ∧
      body.code = e.finish (.enterFrame frame :: c)) ∧
    (∀ x ∈ Stmt.exprsAll b.stmts,
      (∃ c, x.code e = .ok c ∧ ∀ st, Leads body.result c st (pushed x.ty st)) ∧
      ∃ c, x.discard e = .ok c ∧ ∀ st, Leads body.result c st st) ∧
    ∀ s ∈ Stmt.partsAll b.stmts, ∀ l, ∃ c l', s.code e l = .ok (c, l') ∧ Leads body.result c [] []

theorem finish_settles (h : Settles e c) :
    Settles e (e.finish c) := by
  unfold Surroundings.finish
  split
  · exact h
  · exact h.append Settles.exit

/-- The body of a sound routine with types of the language keeps the discipline. -/
theorem Sound.disciplined {Top : Symbol → Prop} {outer : Surroundings} {body : Body}
    (h : r.Sound Top round b) (hBlock : r.body = some b) (hPlaced : outer.placed = [round])
    (hValued : ∀ n ∈ Stmt.notesAll b.stmts, n.Valued) (hEmits : r.Emits outer body) :
    r.Disciplined outer body := by
  obtain ⟨sym, l, l', c, hEntry, hRound, _, hCode, rfl⟩ := h.emits hBlock hEmits
  have hPart : ∀ s ∈ (Stmt.block b.pos b.scope b.stmts).parts, Stmt.Ready r.result s ∧ s.Valued := by
    intro s hs
    obtain ⟨_, _, hNotes⟩ := Stmt.of_mem_parts hs
    exact ⟨h.ready_body.part hs, fun n hn => hValued n (hNotes hn)⟩
  have hUnwind : (outer.enter r.result sym r.params b).unwind =
      ((Stmt.localsAll b.stmts).map (·.ty)).reverse ++ (paramTypes r.params).reverse := by
    simp [Surroundings.enter, hPlaced, hRound]
  have hFrame : Settles (outer.enter r.result sym r.params b)
      [.enterFrame (Ty.frameSize ((Stmt.localsAll b.stmts).map (·.ty)))] :=
    ⟨rfl, Unwound.of_not_mem (by simp)⟩
  have hSettles := finish_settles (hFrame.append ((h.pieces hCode).settles hPart))
  refine ⟨hSettles.leads, fun pre i post asked hEq hAsked => ?_, ?_, sym, b, hEntry, hBlock,
    ⟨l, l', _, c, hCode, rfl⟩, fun x hx => ?_, fun s hs l => ?_⟩
  · have hLeads : Leads r.result (pre ++ i :: post) [] [] := by
      rw [← hEq]
      exact hSettles.leads
    exact hLeads.rests hAsked
  · have hTypes : (paramSlots r.params).map (·.ty) = paramTypes r.params := by
      simp [paramSlots, paramTypes]
    rw [Body.localTypes, Body.paramTypes, hTypes, ← hUnwind]
    exact hSettles.unwound
  · obtain ⟨hPresent, hTyped⟩ := h.expr hx
    obtain ⟨s, hs, hx⟩ := Stmt.mem_exprsAll.mp hx
    obtain ⟨_, _, hNotes⟩ := Stmt.of_mem_exprs hx
    have hNoted : x.Valued := fun n hn => hValued n (Stmt.mem_notesAll.mpr ⟨s, hs, hNotes hn⟩)
    exact ⟨Expr.code_leads _ x hPresent hTyped hNoted,
      Expr.discard_leads _ x hPresent hTyped hNoted⟩
  · obtain ⟨hReady, hNoted⟩ := hPart s (mem_cons_of_mem _ hs)
    have hRun := @Stmt.code_twin (outer.enter r.result sym r.params b) _ _ (fun _ => rfl) s hReady
    obtain ⟨c, _, l', hc, _⟩ := hRun l
    exact ⟨c, l', hc, (Stmt.code_settles s hReady hNoted l c l' hc).leads⟩

end Routine

/-- A script without errors, whose names have types of the language, has a program in which every
body keeps the discipline of the stack. -/
theorem Session.emit_disciplined {script : Script} {library : Library} {privileged : Bool}
    {s : Session} (hValued : script.Valued (library.visible privileged))
    (hAnalyze : (Session.start script library privileged).analyze = .ok s)
    (hFailed : s.failed = false) :
    ∃ s' p, s.emit = .ok (s', some p) ∧
      p.Implements (Routine.Disciplined s.surroundings) s.script := by
  have hAccepted := Session.analyze_accepted hAnalyze hFailed
  refine hAccepted.emits_all fun r₀ hr₀ r body hAnalyzed hEmits => ?_
  obtain ⟨b₀, b, hBlock₀, hBlock, hLocals, hSound⟩ := hAnalyzed.body
  refine hSound.disciplined hBlock hAccepted.placed (hSound.valued hValued ?_) hEmits
  have hFrame : frameTypes r.params b = frameTypes r₀.params b₀ := by
    rw [frameTypes, frameTypes, hAnalyzed.params, hLocals]
  rw [hFrame]
  exact hValued.frames r₀ hr₀ b₀ hBlock₀

/-- The script of the example keeps the discipline. -/
theorem Session.emit_disciplined_sample :
    Script.sample.Valued (Library.visible ⟨[]⟩ false) ∧
      ∃ s, (Session.start .sample ⟨[]⟩ false).analyze = .ok s ∧ s.failed = false ∧
        ∃ s' p, s.emit = .ok (s', some p) ∧
          p.Implements (Routine.Disciplined s.surroundings) s.script := by
  have hValued : Script.sample.Valued (Library.visible ⟨[]⟩ false) := by
    constructor <;> decide
  obtain ⟨s, hAnalyze, hFailed⟩ := Session.sample_analyzes
  exact ⟨hValued, s, hAnalyze, hFailed, Session.emit_disciplined hValued hAnalyze hFailed⟩

end Lsl
