import Lsl.Proofs.Declared

/-! The numbers of variables. The walk of declarations counts the variables of a frame as it meets them,
so the number of a variable is its place among the parameters and locals. -/
namespace Lsl

open List

variable {ty : Ty} {entry : Option Symbol} {ss : List Stmt}

def Note.slot? : Note → Option (Ty × Option Symbol)
  | .declares .local ty entry => some (ty, entry)
  | _ => none

/-- The variables of a frame that notes declare, in order. -/
def slotsIn (notes : List Note) : List (Ty × Option Symbol) := notes.filterMap Note.slot?

@[simp] theorem slotsIn_append (m n : List Note) : slotsIn (m ++ n) = slotsIn m ++ slotsIn n :=
  filterMap_append ..

theorem slotsIn_paramNotes (ps : List Param) :
    slotsIn (paramNotes ps) = ps.map fun p => (p.ty, p.entry) := by
  induction ps with
  | nil => rfl
  | cons p ps ih => exact congrArg ((p.ty, p.entry) :: ·) ih

theorem mem_slotsIn {notes : List Note} :
    (ty, entry) ∈ slotsIn notes ↔ .declares .local ty entry ∈ notes := by
  simp only [slotsIn, mem_filterMap]
  constructor
  · rintro ⟨n, hn, hSlot⟩
    unfold Note.slot? at hSlot
    split at hSlot
    · cases hSlot
      exact hn
    · cases hSlot
  · exact fun h => ⟨_, h, rfl⟩

theorem Expr.slotsIn_notes (x : Expr) : slotsIn x.notes = [] := by
  refine List.filterMap_eq_nil_iff.mpr fun n hn => ?_
  obtain ⟨_, _, rfl, _⟩ := uses_of_mem_notes x n hn
  rfl

theorem Expr.slotsIn_notesAll (es : List Expr) : slotsIn (notesAll es) = [] := by
  refine List.filterMap_eq_nil_iff.mpr fun n hn => ?_
  obtain ⟨_, _, rfl, _⟩ := uses_of_mem_notesAll n hn
  rfl

def Stmt.declaration? : Stmt → Option (Slot × Option Symbol)
  | .decl _ name ty _ entry => some (⟨name, ty⟩, entry)
  | _ => none

/-- The variables that statements declare are their locals. -/
theorem Stmt.declarationsAll_slots (ih : ∀ s ∈ ss, (s.parts.filterMap declaration?).map Prod.fst =
    s.locals) :
    ((partsAll ss).filterMap declaration?).map Prod.fst = localsAll ss := by
  induction ss with
  | nil => rfl
  | cons s ss ihList =>
    rw [partsAll, localsAll, filterMap_append, map_append, ih s (by simp),
      ihList fun t ht => ih t (by simp [ht])]

theorem Stmt.declarations_slots (s : Stmt) : (s.parts.filterMap declaration?).map Prod.fst = s.locals := by
  induction s with
  | block p scope ss ih => exact declarationsAll_slots ih
  | ifThen p c ts t es e iht ihe => simp [parts, locals, filterMap_cons, declaration?, iht, ihe]
  | whileLoop | doWhile | forLoop => assumption
  | _ => rfl

/-- The variables that statements declare are those noted in them. -/
theorem Stmt.declarationsAll_notes
    (ih : ∀ s ∈ ss, (s.parts.filterMap declaration?).map (fun v => (v.1.ty, v.2)) = slotsIn s.notes) :
    ((partsAll ss).filterMap declaration?).map (fun v => (v.1.ty, v.2)) = slotsIn (notesAll ss) := by
  induction ss with
  | nil => rfl
  | cons s ss ihList =>
    rw [partsAll, notesAll, filterMap_append, map_append, slotsIn_append, ih s (by simp),
      ihList fun t ht => ih t (by simp [ht])]

theorem Stmt.declarations_notes (s : Stmt) :
    (s.parts.filterMap declaration?).map (fun v => (v.1.ty, v.2)) = slotsIn s.notes := by
  induction s with
  | block p scope ss ih => exact declarationsAll_notes ih
  | decl p name ty init entry =>
    rw [notes, slotsIn_append, Expr.slotsIn_notes]
    rfl
  | ifThen | whileLoop | doWhile | forLoop =>
    simp [parts, notes, filterMap_cons, declaration?, Expr.slotsIn_notes, Expr.slotsIn_notesAll, *]
  | expr p x | ret p x => rw [notes, Expr.slotsIn_notes]; rfl
  | _ => rfl

theorem slotsIn_frame (ps : List Param) (b : Block) :
    (slotsIn (paramNotes ps ++ Stmt.notesAll b.stmts)).map Prod.fst = frameTypes ps b := by
  rw [slotsIn_append, map_append, slotsIn_paramNotes, frameTypes,
    ← Stmt.declarationsAll_notes fun s _ => s.declarations_notes,
    ← Stmt.declarationsAll_slots fun s _ => s.declarations_slots, map_map, map_map, map_map]
  rfl

/-- Notes in which the number of each variable is its place among the variables. -/
def Numbered (notes : List Note) : Prop :=
  ∀ (i : Nat) (ty : Ty) (s : Symbol), (slotsIn notes)[i]? = some (ty, some s) → s.index = i

/-- A variable has the type that the frame has at its number. -/
theorem Numbered.placed {ps : List Param} {b : Block}
    (h : Numbered (paramNotes ps ++ Stmt.notesAll b.stmts)) {s : Symbol}
    (hMem : .declares .local ty (some s) ∈ paramNotes ps ++ Stmt.notesAll b.stmts) :
    (frameTypes ps b)[s.index]? = some ty := by
  obtain ⟨i, hi⟩ := mem_iff_getElem?.mp (mem_slotsIn.mpr hMem)
  rw [h i ty s hi, ← slotsIn_frame, List.getElem?_map, hi]
  rfl

namespace Declaring

/-- What a piece of a walk counts: variables of the frame take the next numbers, and the numbers of
globals and functions stand still. -/
structure Counts (d d' : Declaring) (notes : List Note) : Prop where
  globals : d'.globals = d.globals
  functions : d'.functions = d.functions
  slots : d'.slots = d.slots + (slotsIn notes).length
  numbered : ∀ i ty s, (slotsIn notes)[i]? = some (ty, some s) → s.index = d.slots + i

variable {d d' d'' : Declaring} {m n : List Note}

theorem Counts.still (hGlobals : d'.globals = d.globals) (hFunctions : d'.functions = d.functions)
    (hSlots : d'.slots = d.slots) (hNotes : slotsIn m = []) : Counts d d' m where
  globals := hGlobals
  functions := hFunctions
  slots := by simp [hNotes, hSlots]
  numbered := by simp [hNotes]

theorem Counts.trans (h : Counts d d' m) (h' : Counts d' d'' n) : Counts d d'' (m ++ n) where
  globals := h'.globals.trans h.globals
  functions := h'.functions.trans h.functions
  slots := by
    rw [h'.slots, h.slots, slotsIn_append, length_append, Nat.add_assoc]
  numbered := by
    intro i ty s hi
    rw [slotsIn_append] at hi
    by_cases hFirst : i < (slotsIn m).length
    · rw [List.getElem?_append_left hFirst] at hi
      exact h.numbered i ty s hi
    · rw [List.getElem?_append_right (by omega)] at hi
      have hIndex := h'.numbered _ ty s hi
      rw [h.slots] at hIndex
      omega

/-- The open scopes play no part in counting. -/
theorem Counts.bracket (h : Counts { d with inner := ⟨[]⟩, outer := d.chain } d' m) (inner : Scope)
    (outer : List Scope) : Counts d { d' with inner, outer } m :=
  ⟨h.globals, h.functions, h.slots, h.numbered⟩

end Declaring

namespace Declares

open Declaring (Counts)

variable {d d' : Declaring}

/-- A variable of the frame takes the next number. -/
theorem declareLocal_counts {pos : Pos} {name : String} (h : declareLocal pos name ty d = (entry, d')) :
    d.Counts d' [.declares .local ty entry] := by
  simp only [declareLocal, state_bind_eq, state_get_eq, state_set_eq] at h
  obtain ⟨_, _, ⟨rfl, rfl⟩, _, _, rfl, h⟩ := h
  have hSlots : slotsIn [.declares .local ty entry] = [(ty, entry)] := rfl
  obtain ⟨inner, _, rfl, rfl⟩ | ⟨rfl, rfl⟩ := declare_cases h
  · refine ⟨rfl, rfl, rfl, fun i ty' s hi => ?_⟩
    rw [hSlots] at hi
    cases i with
    | zero =>
      cases hi
      rfl
    | succ i => cases hi
  · refine ⟨rfl, rfl, rfl, fun i ty' s hi => ?_⟩
    rw [hSlots] at hi
    cases i <;> cases hi

theorem counts_composes : Composes fun d d' notes _ => d.Counts d' notes where
  trans := Counts.trans
  bracket h := h.bracket _ _
  report _ _ _ := Counts.still rfl rfl rfl rfl
  expr := by
    intro x d x' d' h
    cases h
    exact Counts.still rfl rfl rfl (Expr.slotsIn_notes _)
  exprs := by
    intro es d es' d' h
    cases h
    exact Counts.still rfl rfl rfl (Expr.slotsIn_notesAll _)
  leaves _ := Counts.still rfl rfl rfl rfl
  declareLocal := declareLocal_counts
  label := by
    intro p name entry d s' d' h
    simp only [stmt, state_bind_eq, state_get_eq, state_set_eq, state_pure_eq] at h
    obtain ⟨_, _, ⟨rfl, rfl⟩, _, _, rfl, entry', _, hDeclare, rfl, rfl⟩ := h
    obtain ⟨inner, _, rfl, rfl⟩ | ⟨rfl, rfl⟩ := declare_cases hDeclare
    · exact Counts.still rfl rfl rfl rfl
    · exact Counts.still rfl rfl rfl rfl

/-- The number of each variable is its place in the frame. -/
theorem frame_counts {ps ps' : List Param} {b b' : Block} (h : frame ps b d = ((ps', b'), d')) :
    d'.globals = d.globals ∧ d'.functions = d.functions ∧
      Numbered (paramNotes ps' ++ Stmt.notesAll b'.stmts) := by
  obtain ⟨_, d₁, ss', d₂, rfl, hps, hss, rfl, rfl⟩ := frame_steps h
  have hStmts := stmts_composes counts_composes (fun s _ => stmt_composes counts_composes s) hss
  have hCounts := (params_composes counts_composes hps).trans hStmts
  refine ⟨hCounts.globals, hCounts.functions, fun i ty s hi => ?_⟩
  rw [hCounts.numbered i ty s hi]
  exact Nat.zero_add i

end Declares
end Lsl
