import Lsl.Proofs.CompleteTrees
import Lsl.Proofs.NotesOnly

/-! Scripts prepared for the later analyses. Where the declaration of names finds no error, no part of the
script is missing and every declaration and variable has its symbol; where the resolution of later names finds
none either, every call, jump and state change has one, too, of the kind called for. The other analyses and
emission then lack nothing. -/
namespace Lsl

open List

variable {entry : Option Symbol} {message : String} {D : Symbol → Prop} {ds : List Diagnostic} {α : Type}

variable {s s' : Script} {pos : Pos}

namespace Note

/-- Whether the symbol noted is there and has the kind called for. -/
def fits : Note → Bool
  | declares kind _ entry => entry.any (·.kind == kind)
  | uses want entry => entry.any (·.kind.serves want)

/-- Whether a use is left to the resolution of later names. -/
def isLater : Note → Bool
  | declares .. => false
  | uses want _ => want != .local

theorem fits_declares {kind : SymbolKind} {ty : Ty} :
    (declares kind ty entry).fits ↔ ∃ s, entry = some s ∧ s.kind = kind := by
  cases entry <;> simp [fits]

theorem fits_uses {want : SymbolKind} :
    (uses want entry).fits ↔ ∃ s, entry = some s ∧ s.kind.serves want = true := by
  cases entry <;> simp [fits]

theorem fits.symbol {n : Note} (h : n.fits) : n.symbol?.isSome = true := by
  cases n with
  | declares kind ty entry =>
    obtain ⟨s, rfl, -⟩ := fits_declares.mp h
    rfl
  | uses want entry =>
    obtain ⟨s, rfl, -⟩ := fits_uses.mp h
    rfl

end Note

def bodyNotes (b : Option Block) : List Note := b.elim [] fun b => Stmt.notesAll b.stmts

def Global.notes : Global → List Note
  | .missing => []
  | .var v => v.init.notes ++ [.declares .global v.ty v.entry]
  | .function f => .declares .function f.result f.entry :: (paramNotes f.params ++ bodyNotes f.body)

def Handler.notes (h : Handler) : List Note :=
  .declares .event .void h.entry :: (paramNotes h.params ++ bodyNotes h.body)

def State.notes (s : State) : List Note :=
  .declares .state .void s.entry :: s.events.flatMap (·.elim [] Handler.notes)

def Script.notes (s : Script) : List Note :=
  s.globals.flatMap Global.notes ++ s.states.flatMap (·.elim [] State.notes)

/-- A script whose names are declared: nothing is missing, and only calls, jumps and state changes may still
lack their symbols. -/
structure Script.Named (s : Script) : Prop where
  complete : s.complete
  fits : ∀ n ∈ s.notes, n.isLater ∨ n.fits

/-- A script whose names are all resolved: nothing is missing, and every name has a symbol of the kind called
for. -/
structure Script.Prepared (s : Script) : Prop where
  complete : s.complete
  fits : ∀ n ∈ s.notes, n.fits

/-- What is found at a part of a tree: something if the part is not complete, and if it is complete, then
nothing about missing parts. -/
structure Tells (ds : List Diagnostic) (complete : Bool) : Prop where
  nothing : ds = [] → complete = true
  kind : complete = true → ∀ x ∈ ds, x.kind ≠ .malformedTree

namespace Tells

variable {ds' : List Diagnostic} {c c' : Bool}

theorem nil : Tells [] true := ⟨fun _ => rfl, by simp⟩

theorem other (h : ∀ x ∈ ds, x.kind ≠ .malformedTree) : Tells ds true := ⟨fun _ => rfl, fun _ => h⟩

theorem lacks : Tells [malformed pos message] false :=
  ⟨by simp, by simp⟩

/-- Two parts are complete together if each of them is. -/
theorem append (h : Tells ds c) (h' : Tells ds' c') : Tells (ds ++ ds') (c && c') where
  nothing := by
    intro hNone
    obtain ⟨hNone, hNone'⟩ := List.append_eq_nil_iff.mp hNone
    rw [h.nothing hNone, h'.nothing hNone', Bool.and_true]
  kind := by
    intro hBoth x hx
    obtain ⟨hc, hc'⟩ := Bool.and_eq_true_iff.mp hBoth
    rcases List.mem_append.mp hx with hx | hx
    · exact h.kind hc x hx
    · exact h'.kind hc' x hx

end Tells

theorem Ident.bindProblems_tells (chain : List Scope) (v : Ident) : Tells (v.bindProblems chain) true := by
  apply Tells.other
  unfold Ident.bindProblems
  split <;> simp

/-- What is found at sites when names are declared tells whether there are gaps. -/
theorem Site.bindProblems_tells (chain : List Scope) (ss : List Site) :
    Tells (ss.flatMap (·.bindProblems chain)) (ss.all isFilled) := by
  induction ss with
  | nil => exact .nil
  | cons s ss ih =>
    rw [flatMap_cons, all_cons]
    cases s with
    | gap => exact Tells.lacks.append ih
    | ident v => exact (v.bindProblems_tells chain).append ih
    | callee => exact Tells.nil.append ih

namespace Expr

theorem bindAllProblems_tells (chain : List Scope) (es : List Expr) :
    Tells (bindAllProblems chain es) (completeAll es) := by
  rw [(charts_all chain es).unbound, completeAll_eq_sites]
  exact Site.bindProblems_tells chain _

theorem bindProblems_tells (chain : List Scope) (x : Expr) : Tells (x.bindProblems chain) x.complete := by
  rw [(x.sites_charts chain).unbound, complete_sites]
  exact Site.bindProblems_tells chain _

theorem bindOptionalProblems_tells (chain : List Scope) (x : Expr) :
    Tells (x.bindOptionalProblems chain) x.absentOrComplete := by
  cases x with
  | missing => exact .nil
  | _ => exact bindProblems_tells chain _

end Expr

/-- The notes of a walk that finds nothing: what is not left to the resolution of later names fits. -/
theorem Declaring.Walks.fits {d d' : Declaring} {notes : List Note} {scopes : List Scope}
    (h : Walks d d' notes scopes) (hNone : d'.diagnostics = []) : ∀ n ∈ notes, n.isLater ∨ n.fits := by
  intro n hn
  cases n with
  | declares kind ty entry =>
    obtain ⟨s, rfl⟩ := Option.isSome_iff_exists.mp (h.bound hNone kind ty entry hn)
    exact .inr (Note.fits_declares.mpr ⟨s, rfl, (h.made kind ty s hn).1⟩)
  | uses want entry =>
    by_cases hWant : want = .local
    · subst hWant
      obtain ⟨s, rfl, hServes, -⟩ := (h.known hNone (fun _ => True) (fun _ _ _ _ => trivial)
        fun _ _ => trivial).1 entry hn
      exact .inr (Note.fits_uses.mpr ⟨s, rfl, hServes⟩)
    · exact .inl (by simp [Note.isLater, hWant])

namespace Declares

variable {β : Type} {m : Declares α} {f : α → Declares β} {c c' : Bool} {P : α → Prop}
  {Q : β → Prop}

/-- What a walk finds on its way tells whether a part of a tree is complete, and if nothing has been found by
its end, its result has a property. -/
def Finds (m : Declares α) (complete : Bool) (P : α → Prop) : Prop :=
  ∀ d, ∃ ds, (m d).2.diagnostics = d.diagnostics ++ ds ∧ Tells ds complete ∧
    ((m d).2.diagnostics = [] → P (m d).1)

abbrev Complains (m : Declares α) (complete : Bool) : Prop := Finds m complete fun _ => True

namespace Finds

theorem pure {a : α} (h : P a) : Finds (pure a) true P :=
  fun d => ⟨[], (append_nil d.diagnostics).symm, .nil, fun _ => h⟩

theorem imp {P' : α → Prop} (h : Finds m c P) (hImp : ∀ a, P a → P' a) : Finds m c P' := by
  intro d
  obtain ⟨ds, hds, hTells, hResult⟩ := h d
  exact ⟨ds, hds, hTells, fun hNone => hImp _ (hResult hNone)⟩

theorem bind (hm : Finds m c P) (hf : ∀ a, Finds (f a) c' fun b => P a → Q b) :
    Finds (m >>= f) (c && c') Q := by
  intro d
  obtain ⟨ds, hds, hFirst, hHolds⟩ := hm d
  obtain ⟨ds', hds', hSecond, hResult⟩ := hf (m d).1 (m d).2
  refine ⟨ds ++ ds', ?_, hFirst.append hSecond, fun hNone => hResult hNone (hHolds ?_)⟩
  · show (f (m d).1 (m d).2).2.diagnostics = _
    rw [hds', hds, append_assoc]
  · exact (List.append_eq_nil_iff.mp (hds'.symm.trans hNone)).1

theorem skip (hm : Finds m true P) (hf : ∀ a, Finds (f a) c fun b => P a → Q b) : Finds (m >>= f) c Q :=
  Bool.true_and c ▸ hm.bind hf

theorem last (hm : Finds m c P) (hf : ∀ a, Finds (f a) true fun b => P a → Q b) : Finds (m >>= f) c Q :=
  Bool.and_true c ▸ hm.bind hf

theorem lacks {a : α} : Finds (do report [malformed pos message]; return a) false P :=
  fun _ => ⟨_, rfl, .lacks, fun hNone => nomatch (List.append_eq_nil_iff.mp hNone).2⟩

theorem mapM {g : α → Declares β} (complete : α → Bool) {as : List α}
    (h : ∀ a ∈ as, Finds (g a) (complete a) Q) :
    Finds (as.mapM g) (as.all complete) fun bs => ∀ b ∈ bs, Q b := by
  induction as with
  | nil => exact pure (by simp)
  | cons a as ih =>
    rw [mapM_cons, all_cons]
    refine (h a (by simp)).bind fun b => (ih fun x hx => h x (by simp [hx])).last fun bs => pure ?_
    intro hRest hHead
    rw [forall_mem_cons]
    exact ⟨hHead, hRest⟩

end Finds

namespace Complains

theorem quiet (h : ∀ d, (m d).2.diagnostics = d.diagnostics) : Complains m true :=
  fun d => ⟨[], by rw [h d, append_nil], .nil, fun _ => trivial⟩

theorem pure {a : α} : Complains (pure a) true := quiet fun _ => rfl

theorem report (h : Tells ds c) : Complains (report ds) c :=
  fun _ => ⟨ds, rfl, h, fun _ => trivial⟩

theorem bind (hm : Complains m c) (hf : ∀ a, Complains (f a) c') : Complains (m >>= f) (c && c') :=
  Finds.bind hm fun a => (hf a).imp fun _ _ => id

theorem skip (hm : Complains m true) (hf : ∀ a, Complains (f a) c) : Complains (m >>= f) c :=
  Finds.skip hm fun a => (hf a).imp fun _ _ => id

theorem last (hm : Complains m c) (hf : ∀ a, Complains (f a) true) : Complains (m >>= f) c :=
  Finds.last hm fun a => (hf a).imp fun _ _ => id

end Complains

theorem expr_complains (x : Expr) : Complains (expr x) x.complete :=
  fun d => ⟨_, rfl, x.bindProblems_tells d.chain, fun _ => trivial⟩

theorem optional_complains (x : Expr) : Complains (optional x) x.absentOrComplete :=
  fun d => ⟨_, rfl, x.bindOptionalProblems_tells d.chain, fun _ => trivial⟩

theorem exprs_complains (es : List Expr) : Complains (exprs es) (Expr.completeAll es) :=
  fun d => ⟨_, rfl, Expr.bindAllProblems_tells d.chain es, fun _ => trivial⟩

theorem enter_complains : Complains enter true := .quiet fun _ => rfl

theorem leave_complains : Complains leave true := .quiet fun _ => rfl

theorem declare_finds (pos : Pos) (sym : Symbol) (ty : Ty) :
    Finds (declare pos sym) true fun entry => (Note.declares sym.kind ty entry).fits := by
  intro d
  cases hDeclare : declare pos sym d with
  | mk entry d' =>
    obtain ⟨inner, -, rfl, rfl⟩ | ⟨-, rfl⟩ := declare_cases hDeclare
    · exact ⟨[], (append_nil _).symm, .nil, fun _ => Note.fits_declares.mpr ⟨_, rfl, rfl⟩⟩
    · exact ⟨_, rfl, .other (by simp), fun hNone => nomatch (List.append_eq_nil_iff.mp hNone).2⟩

/-- The declaration of a name under the next number of its kind. -/
theorem numbered_finds {count : Declaring → Declaring} {sym : Declaring → Symbol}
    {f : Option Symbol → Declares β} (kind : SymbolKind) (ty : Ty)
    (hCount : ∀ d, (count d).diagnostics = d.diagnostics) (hKind : ∀ d, (sym d).kind = kind)
    (h : ∀ entry, Finds (f entry) c fun b => (Note.declares kind ty entry).fits → Q b) :
    Finds (do let d ← get; set (count d); let entry ← declare pos (sym d); f entry) c Q := by
  intro d
  have hDeclare := declare_finds pos (sym d) ty
  rw [hKind d] at hDeclare
  have hStep := hDeclare.skip h (count d)
  rw [hCount d] at hStep
  exact hStep

theorem declareLocal_complains (pos : Pos) (name : String) (ty : Ty) :
    Complains (declareLocal pos name ty) true :=
  fun d => (declare_finds pos { name, kind := .local, ty, index := d.slots } ty).imp (fun _ _ => trivial)
    { d with slots := d.slots + 1 }

theorem body_complains {s : Stmt} (h : Complains (stmt s) s.complete) :
    Complains (body s (stmt s)) s.complete := by
  cases s with
  | missing => exact .lacks
  | block | label => exact h.last fun _ => .pure
  | _ => exact enter_complains.skip fun _ => h.last fun _ => leave_complains.skip fun _ => .pure

theorem stmts_complains {ss : List Stmt} (ih : ∀ s ∈ ss, Complains (stmt s) s.complete) :
    Complains (stmts ss) (Stmt.completeAll ss) := by
  induction ss with
  | nil => exact .pure
  | cons s ss ihTail =>
    refine (ih s (by simp)).bind fun s' => ?_
    exact (ihTail fun x hx => ih x (by simp [hx])).last fun ss' => .pure

/-- What is found in a statement when names are declared tells whether it is complete. -/
theorem stmt_complains (s : Stmt) : Complains (stmt s) s.complete := by
  induction s with
  | missing => exact .lacks
  | jump | goto | empty => exact .pure
  | block p scope ss ih =>
    exact enter_complains.skip fun _ => (stmts_complains ih).last fun _ => leave_complains.skip fun _ => .pure
  | expr p x => exact (expr_complains x).last fun _ => .pure
  | decl p name ty init entry =>
    exact (optional_complains init).last fun _ => (declareLocal_complains p name ty).skip fun _ => .pure
  | ifThen p c ts t es e iht ihe =>
    rw [Stmt.complete, Bool.and_assoc]
    refine (expr_complains c).bind fun c' => (body_complains iht).bind fun r => ?_
    obtain ⟨ts', t'⟩ := r
    obtain rfl | hPresent := e.missing_or_present
    · exact .pure
    · simp only [hPresent, Bool.false_eq_true, if_false, Bool.false_or]
      exact (body_complains ihe).last fun _ => .pure
  | whileLoop p c bs b ih => exact (expr_complains c).bind fun _ => (body_complains ih).last fun _ => .pure
  | doWhile p bs b c ih => exact (body_complains ih).bind fun _ => (expr_complains c).last fun _ => .pure
  | forLoop p init c step bs b ih =>
    rw [Stmt.complete, Bool.and_assoc, Bool.and_assoc]
    refine (exprs_complains init).bind fun _ => (optional_complains c).bind fun _ => ?_
    exact (exprs_complains step).bind fun _ => (body_complains ih).last fun _ => .pure
  | label p name entry =>
    exact numbered_finds .label .void (fun _ => rfl) (fun _ => rfl) fun _ => .pure fun _ => trivial
  | ret p v => exact (optional_complains v).last fun _ => .pure

/-- The notes of a body in which nothing is found: what is not left to the resolution of later names fits. -/
theorem frame_finds (ps : List Param) (b : Block) : Finds (frame ps b) b.complete fun r =>
    ∀ n ∈ paramNotes r.1 ++ Stmt.notesAll r.2.stmts, n.isLater ∨ n.fits := by
  have hParams : Complains (ps.mapM param) true := by
    have hParam : ∀ p ∈ ps, Complains (param p) true := fun p _ =>
      (declareLocal_complains p.pos p.name p.ty).skip fun _ => .pure
    have h := (Finds.mapM (fun _ => true) hParam).imp fun _ _ => trivial
    rwa [List.all_eq_true.mpr fun _ _ => rfl] at h
  have hFrame : Complains (frame ps b) b.complete := by
    refine enter_complains.skip fun _ => .skip (.quiet fun _ => rfl) fun _ => hParams.skip fun _ => ?_
    exact (stmts_complains fun s _ => stmt_complains s).last fun _ => leave_complains.skip fun _ => .pure
  intro d
  obtain ⟨ds, hds, hTells, -⟩ := hFrame d
  obtain ⟨-, -, -, sc, -, hWalk⟩ := @frame_walks d _ ps _ b _ rfl
  exact ⟨ds, hds, hTells, hWalk.fits⟩

theorem globalVar_finds (v : GlobalVar) : Finds (globalVar v) v.init.absentOrComplete
    fun v' => ∀ n ∈ (Global.var v').notes, n.isLater ∨ n.fits := by
  refine Finds.last (P := fun x => ∀ n ∈ x.notes, n.isLater ∨ n.fits) (fun d => ?_) fun x => ?_
  · have hWalk := @optional_walks d _ v.init _ rfl
    exact ⟨_, rfl, v.init.bindOptionalProblems_tells d.chain, hWalk.fits⟩
  · refine numbered_finds .global v.ty (fun _ => rfl) (fun _ => rfl) fun entry => .pure ?_
    intro hEntry hInit
    simpa only [Global.notes, forall_mem_append, forall_mem_singleton] using ⟨hInit, .inr hEntry⟩

theorem function_finds (f : Function) : Finds (function f) (f.body.any Block.complete)
    fun f' => ∀ n ∈ (Global.function f').notes, n.isLater ∨ n.fits := by
  refine numbered_finds .function f.result (fun _ => rfl) (fun _ => rfl) fun entry => ?_
  cases f.body with
  | none => exact .lacks
  | some b =>
    refine (frame_finds f.params b).last fun r => .pure ?_
    intro hFrame hEntry
    rw [Global.notes, forall_mem_cons]
    exact ⟨.inr hEntry, hFrame⟩

theorem global_finds (script : Pos) (g : Global) :
    Finds (global script g) g.complete fun g' => ∀ n ∈ g'.notes, n.isLater ∨ n.fits := by
  cases g with
  | missing => exact .lacks
  | var v => exact (globalVar_finds v).last fun _ => .pure id
  | function f => exact (function_finds f).last fun _ => .pure id

theorem knownHandler_finds (kind : EventKind) (h : Handler) :
    Finds (knownHandler kind h) h.complete fun h' => ∀ n ∈ h'.notes, n.isLater ∨ n.fits := by
  refine (declare_finds h.pos _ .void).skip fun entry => ?_
  unfold Handler.complete
  cases h.body with
  | none => exact .lacks
  | some b =>
    refine (frame_finds h.params b).last fun r => .pure ?_
    intro hFrame hEntry
    rw [Handler.notes, forall_mem_cons]
    exact ⟨.inr hEntry, hFrame⟩

/-- The body of a handler for an unknown event is not looked at, but the event itself is complained about. -/
theorem handler_finds (h : Handler) :
    Finds (handler h) h.complete fun h' => ∀ n ∈ h'.notes, n.isLater ∨ n.fits := by
  unfold handler
  split
  · exact fun _ => ⟨_, rfl, ⟨(by simp), by simp⟩, fun h => nomatch (List.append_eq_nil_iff.mp h).2⟩
  · split
    · exact Finds.skip (Complains.report (.other (by simp))) fun _ =>
        (knownHandler_finds _ h).imp fun _ hNotes _ => hNotes
    · exact knownHandler_finds _ h

theorem state_finds (index : Nat) (s : State) :
    Finds (state index s) s.complete fun s' => ∀ n ∈ s'.notes, n.isLater ∨ n.fits := by
  refine (declare_finds s.pos _ .void).skip fun entry => Finds.skip enter_complains fun _ => ?_
  refine Finds.last (P := fun es => ∀ e ∈ es, ∀ n ∈ e.elim [] Handler.notes, n.isLater ∨ n.fits)
    (.mapM _ fun e _ => ?_) fun es => Finds.skip leave_complains fun _ => .pure ?_
  · cases e with
    | none => exact .lacks
    | some h => exact (handler_finds h).last fun _ => .pure id
  · intro _ hEvents _ hEntry n hn
    rw [State.notes, mem_cons, mem_flatMap] at hn
    rcases hn with rfl | ⟨e, he, hn⟩
    · exact .inr hEntry
    · exact hEvents e he n hn

theorem states_finds (script : Pos) (index : Nat) (ss : List (Option State)) :
    Finds (states script index ss) (ss.all (·.any State.complete))
      fun ss' => ∀ s ∈ ss', ∀ n ∈ s.elim [] State.notes, n.isLater ∨ n.fits := by
  induction ss generalizing index with
  | nil => exact .pure (by simp)
  | cons s ss ih =>
    cases s with
    | none =>
      refine Finds.bind (c := false) (Complains.report .lacks) fun _ => ?_
      exact (ih (index + 1)).last fun _ => .pure (by simp)
    | some s =>
      refine (state_finds index s).bind fun s' => (ih (index + 1)).last fun ss' => .pure ?_
      intro hRest hHead
      rw [forall_mem_cons]
      exact ⟨hHead, hRest⟩

end Declares

/-- What the declaration of names finds in a script tells whether it is complete, but for the complaint about
a script that does not start with the default state. Where it finds nothing, what is not left to the
resolution of later names fits. -/
theorem Script.declare_finds (visible : List LibraryFunction) (round : Nat) (s : Script) :
    ∃ before after, Tells (before ++ after) s.complete ∧ (s.declare visible round).2 = before ++
      (if Declares.startsDefault s.states then [] else [malformed s.pos "first state must be default"]) ++
      after ∧ ((s.declare visible round).2 = [] → ∀ n ∈ (s.declare visible round).1.notes,
        n.isLater ∨ n.fits) := by
  let d : Declaring := { inner := ⟨visible.map (·.symbol)⟩, round }
  obtain ⟨before, hBefore, hGlobals, hGlobalNotes⟩ := Declares.Finds.mapM Global.complete
    (fun g (_ : g ∈ s.globals) => Declares.global_finds s.pos g) d
  obtain ⟨after, hAfter, hStates, hStateNotes⟩ := Declares.states_finds s.pos 0 s.states
    ((Declares.requireDefault s ((s.globals.mapM (Declares.global s.pos)) d).2).2)
  refine ⟨before, after, hGlobals.append hStates, ?_, fun hNone n hn => ?_⟩
  · exact hAfter.trans (congrArg (· ++ _ ++ after) hBefore)
  · have hMiddle := (List.append_eq_nil_iff.mp (hAfter.symm.trans hNone)).1
    rcases List.mem_append.mp hn with hn | hn
    · obtain ⟨g, hg, hn⟩ := List.mem_flatMap.mp hn
      exact hGlobalNotes (List.append_eq_nil_iff.mp hMiddle).1 g hg n hn
    · obtain ⟨st, hst, hn⟩ := List.mem_flatMap.mp hn
      exact hStateNotes hNone st hst n hn

/-- Where the declaration of names finds no error, nothing is missing and all names that can be bound so early
are bound. -/
theorem Script.declare_named {visible : List LibraryFunction} {round : Nat}
    (h : s.declare visible round = (s', ds)) (hFailed : Diagnostic.failed ds = false) :
    s'.Named := by
  obtain rfl := Session.eq_nil_of_not_failed (Script.declare_declared h).1 hFailed
  obtain ⟨before, after, hTells, hFound, hFits⟩ := s.declare_finds visible round
  rw [h] at hFound hFits
  obtain ⟨hBefore, rfl⟩ := List.append_eq_nil_iff.mp hFound.symm
  obtain ⟨rfl, -⟩ := List.append_eq_nil_iff.mp hBefore
  have hRaw := Script.declare_raw visible round s
  rw [h] at hRaw
  refine ⟨?_, hFits rfl⟩
  rw [← s'.complete_forget .raw, hRaw, complete_forget]
  exact hTells.nothing rfl

/-- Resolution makes every note fit where it finds nothing. -/
theorem Links.fits {m m' : List Note} (h : Links D m m') (hFits : ∀ n ∈ m, n.isLater ∨ n.fits) :
    ∀ n ∈ m', n.fits := by
  intro n hn
  obtain ⟨o, ho, hLinks⟩ := exists_of_mem_right h hn
  cases hLinks with
  | declares kind ty entry => simpa [Note.isLater] using hFits _ ho
  | mentions entry => simpa [Note.isLater] using hFits _ ho
  | bound entry hWant hServes _ => exact Note.fits_uses.mpr ⟨_, rfl, hServes⟩

theorem notedAll_succeeds (step : α → Except Fault (Noted α)) {as : List α}
    (h : ∀ a ∈ as, ∃ r, step a = .ok r) : ∃ r, notedAll step as = .ok r := by
  induction as with
  | nil => exact ⟨_, rfl⟩
  | cons a as ih =>
    refine bind_succeeds (h a (by simp)) fun _ => ?_
    exact bind_succeeds (ih fun x hx => h x (by simp [hx])) fun _ => ⟨_, rfl⟩

namespace Script

variable {around : List Scope}

theorem resolveBody_succeeds (around : List Scope) {b : Option Block} (h : b.any Block.complete) :
    ∃ r, resolveBody around b = .ok r := by
  obtain ⟨b, rfl, -⟩ := (Option.any_eq_true _ _).mp h
  exact ⟨_, rfl⟩

theorem resolveGlobal_succeeds {g : Global} (h : g.complete) : ∃ r, resolveGlobal around g = .ok r := by
  cases g with
  | missing | var => exact ⟨_, rfl⟩
  | function f => exact bind_succeeds (resolveBody_succeeds around h) fun _ => ⟨_, rfl⟩

theorem resolveHandler_succeeds {h : Option Handler} (hComplete : h.any Handler.complete) :
    ∃ r, resolveHandler around h = .ok r := by
  obtain ⟨h, rfl, hBody⟩ := (Option.any_eq_true _ _).mp hComplete
  obtain ⟨b, hBody⟩ := resolveBody_succeeds around hBody
  exact ⟨_, bind_eq_ok.mpr ⟨_, rfl, bind_eq_ok.mpr ⟨b, hBody, rfl⟩⟩⟩

theorem resolveState_succeeds {s : Option State} (h : s.any State.complete) :
    ∃ r, resolveState around s = .ok r := by
  obtain ⟨s, rfl, hEvents⟩ := (Option.any_eq_true _ _).mp h
  obtain ⟨⟨es, ds⟩, hEvents⟩ := notedAll_succeeds (resolveHandler (s.scope.toList ++ around))
    fun e he => resolveHandler_succeeds (List.all_eq_true.mp hEvents e he)
  exact ⟨_, bind_eq_ok.mpr ⟨_, rfl, bind_eq_ok.mpr ⟨_, hEvents, rfl⟩⟩⟩

/-- Resolution needs no part that a complete script lacks. -/
theorem resolve_succeeds (h : s.complete) : ∃ r, s.resolve = .ok r := by
  simp only [complete, Bool.and_eq_true, all_eq_true] at h
  refine bind_succeeds (notedAll_succeeds _ fun g hg => resolveGlobal_succeeds (h.1 g hg)) fun _ => ?_
  exact bind_succeeds (notedAll_succeeds _ fun st hst => resolveState_succeeds (h.2 st hst)) fun _ =>
    ⟨_, rfl⟩

theorem paramNotes_links (ps : List Param) : Links D (paramNotes ps) (paramNotes ps) :=
  List.forall₂_map_left_iff.mpr (List.forall₂_map_right_iff.mpr
    (List.forall₂_same.mpr fun p _ => .declares .local p.ty p.entry))

theorem resolveBody_links {b b' : Option Block} (h : resolveBody around b = .ok (b', ds)) :
    Assures ds (Links (fun _ => True) (bodyNotes b) (bodyNotes b')) := by
  simp only [resolveBody, bind_eq_ok, need_eq_ok, pure_eq_ok, Prod.mk.injEq] at h
  obtain ⟨b, rfl, rfl, rfl⟩ := h
  have hAny : ∀ scopes : List Scope, ∀ sc ∈ scopes, sc.All fun _ => True := fun _ _ _ _ _ => trivial
  exact Stmt.linkAll_assures (fun s _ => s.link_assures) (hAny _) (hAny _) (hAny _)

theorem resolveGlobal_links {g g' : Global} (h : resolveGlobal around g = .ok (g', ds)) :
    Assures ds (Links (fun _ => True) g.notes g'.notes) := by
  cases g with
  | missing =>
    cases h
    exact .nothing .nil
  | var v =>
    cases h
    exact (v.init.link_assures fun _ _ _ _ => trivial).imp
      (·.append (.cons (.declares .global v.ty v.entry) .nil))
  | function f =>
    simp only [resolveGlobal, bind_eq_ok, pure_eq_ok, Prod.mk.injEq] at h
    obtain ⟨⟨b, ds⟩, hBody, rfl, rfl⟩ := h
    exact (resolveBody_links hBody).imp fun hLinks => .cons (.declares ..)
      ((paramNotes_links f.params).append hLinks)

theorem resolveHandler_links {h h' : Option Handler} (hResolve : resolveHandler around h = .ok (h', ds)) :
    Assures ds (Links (fun _ => True) (h.elim [] Handler.notes) (h'.elim [] Handler.notes)) := by
  simp only [resolveHandler, bind_eq_ok, need_eq_ok, pure_eq_ok, Prod.mk.injEq] at hResolve
  obtain ⟨h, rfl, ⟨b, ds⟩, hBody, rfl, rfl⟩ := hResolve
  exact (resolveBody_links hBody).imp fun hLinks => .cons (.declares ..)
    ((paramNotes_links h.params).append hLinks)

theorem resolveState_links {s s' : Option State} (h : resolveState around s = .ok (s', ds)) :
    Assures ds (Links (fun _ => True) (s.elim [] State.notes) (s'.elim [] State.notes)) := by
  simp only [resolveState, bind_eq_ok, need_eq_ok, pure_eq_ok, Prod.mk.injEq] at h
  obtain ⟨s, rfl, ⟨es, ds⟩, hEvents, rfl, rfl⟩ := h
  exact (notedAll_assures hEvents fun _ _ _ _ hStep => resolveHandler_links hStep).imp (.cons (.declares ..))

/-- Where the resolution of later names finds nothing, it binds what is left to it. -/
theorem resolve_links (h : s.resolve = .ok (s', ds)) :
    Assures ds (Links (fun _ => True) s.notes s'.notes) := by
  simp only [resolve, bind_eq_ok, pure_eq_ok, Prod.mk.injEq] at h
  obtain ⟨⟨gs, dg⟩, hGlobals, ⟨sts, dst⟩, hStates, rfl, rfl⟩ := h
  have hFirst := notedAll_assures hGlobals fun _ _ _ _ hStep => resolveGlobal_links hStep
  exact (hFirst.append (notedAll_assures hStates fun _ _ _ _ hStep => resolveState_links hStep)).imp
    Links.both

/-- Where the resolution of later names finds no error either, all names are bound. -/
theorem Named.prepared (hNamed : s.Named) (h : s.resolve = .ok (s', ds))
    (hFailed : Diagnostic.failed ds = false) : s'.Prepared := by
  obtain rfl := Session.eq_nil_of_not_failed (resolve_errors h) hFailed
  refine ⟨?_, ((resolve_links h).holds rfl).fits hNamed.fits⟩
  rw [← s'.complete_forget .raw, resolve_keeps (by decide) h, complete_forget]
  exact hNamed.complete

end Script

end Lsl
