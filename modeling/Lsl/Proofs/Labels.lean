import Lsl.Proofs.CodeOrigins

/-! The numbers of labels. Labels that the code needs for itself get numbers of their own, and a label
statement gets one number however often it is asked for, so that no body has two labels of one
number. -/
namespace Lsl

variable {notes : List Note} {ss : List Stmt} {l₁ l₂ l l' : Labels} {ns : List Label}

variable {c : List Instr} {n : Label}

def Instr.label? : Instr → Option Label
  | .label n => some n
  | _ => none

def labelsOf (c : List Instr) : List Label := c.filterMap Instr.label?

@[simp] theorem labelsOf_append (c d : List Instr) :
    labelsOf (c ++ d) = labelsOf c ++ labelsOf d := List.filterMap_append ..

@[simp] theorem labelsOf_nil : labelsOf [] = [] := rfl

@[simp] theorem labelsOf_label (n : Label) (c : List Instr) :
    labelsOf (.label n :: c) = n :: labelsOf c := rfl

@[simp] theorem labelsOf_jump (n : Label) (c : List Instr) :
    labelsOf (.jump n :: c) = labelsOf c := rfl

@[simp] theorem labelsOf_jumpIf (t : Ty) (n : Label) (c : List Instr) :
    labelsOf (.jumpIf t n :: c) = labelsOf c := rfl

def Instr.target? : Instr → Option Label
  | .jump n | .jumpIf _ n | .jumpNot _ n => some n
  | _ => none

def targetsOf (c : List Instr) : List Label := c.filterMap Instr.target?

@[simp] theorem targetsOf_append (c d : List Instr) :
    targetsOf (c ++ d) = targetsOf c ++ targetsOf d := List.filterMap_append ..

@[simp] theorem targetsOf_nil : targetsOf [] = [] := rfl

@[simp] theorem targetsOf_label (n : Label) (c : List Instr) :
    targetsOf (.label n :: c) = targetsOf c := rfl

@[simp] theorem targetsOf_jump (n : Label) (c : List Instr) :
    targetsOf (.jump n :: c) = n :: targetsOf c := rfl

@[simp] theorem targetsOf_jumpIf (t : Ty) (n : Label) (c : List Instr) :
    targetsOf (.jumpIf t n :: c) = n :: targetsOf c := rfl

theorem labels_of_straight (h : Straight c) : labelsOf c = [] ∧ targetsOf c = [] := by
  simp only [labelsOf, targetsOf, List.filterMap_eq_nil_iff]
  refine ⟨fun i hi => ?_, fun i hi => ?_⟩ <;> have hStraight := h i hi <;>
    cases i <;> first | rfl | cases hStraight

def Note.jump? : Note → Option Symbol
  | uses .label entry => entry
  | _ => none

def jumpsIn (notes : List Note) : List Symbol := notes.filterMap Note.jump?

@[simp] theorem jumpsIn_nil : jumpsIn [] = [] := rfl

@[simp] theorem jumpsIn_append (m n : List Note) : jumpsIn (m ++ n) = jumpsIn m ++ jumpsIn n :=
  List.filterMap_append ..

theorem mem_jumpsIn {s : Symbol} (h : s ∈ jumpsIn notes) :
    .uses .label (some s) ∈ notes := by
  obtain ⟨n, hn, hs⟩ := List.mem_filterMap.mp h
  cases n with
  | declares kind ty entry => cases hs
  | uses want entry =>
    cases want with
    | label => cases hs; exact hn
    | _ => cases hs

namespace Expr

theorem jumpsIn_notes (x : Expr) : jumpsIn x.notes = [] := by
  refine List.filterMap_eq_nil_iff.mpr fun n hn => ?_
  obtain ⟨want, _, rfl, hWant⟩ := uses_of_mem_notes x n hn
  cases want with
  | label => exact absurd rfl hWant
  | _ => rfl

theorem jumpsIn_notesAll (es : List Expr) : jumpsIn (notesAll es) = [] := by
  refine List.filterMap_eq_nil_iff.mpr fun n hn => ?_
  obtain ⟨e, _, hn⟩ := mem_notesAll.mp hn
  exact List.filterMap_eq_nil_iff.mp e.jumpsIn_notes n hn

end Expr

/-- What tells one label statement from another. -/
def Symbol.key (s : Symbol) : Nat × Nat := (s.round, s.index)

namespace Labels

/-- Labels as they are given out: numbers up to the last, each to at most one statement. -/
structure Valid (l : Labels) : Prop where
  bounded : ∀ k n, l.known.lookup k = some n → n ≤ l.last
  injective : ∀ k k' n, l.known.lookup k = some n → l.known.lookup k' = some n → k = k'

theorem valid_empty : Valid {} := ⟨by simp, by simp⟩

/-- Later labels: the statements keep their numbers, and the others have got new ones. -/
structure Grows (l l' : Labels) : Prop where
  last : l.last ≤ l'.last
  kept : ∀ k n, l.known.lookup k = some n → l'.known.lookup k = some n
  added : ∀ k n, l'.known.lookup k = some n → l.known.lookup k = some n ∨ l.last < n

theorem Grows.refl (l : Labels) : Grows l l := ⟨Int.le_refl _, fun _ _ h => h, fun _ _ h => Or.inl h⟩

theorem Grows.trans {l₃ : Labels} (h : Grows l₁ l₂) (h' : Grows l₂ l₃) : Grows l₁ l₃ where
  last := Int.le_trans h.last h'.last
  kept := fun k n hk => h'.kept k n (h.kept k n hk)
  added := by
    intro k n hk
    rcases h'.added k n hk with hk | hn
    · exact h.added k n hk
    · exact Or.inr (Int.lt_of_le_of_lt h.last hn)

theorem next_valid (h : l.Valid) : l.next.Valid := by
  refine ⟨fun k n hk => ?_, h.injective⟩
  exact Int.le_add_one (h.bounded k n hk)

theorem next_grows (l : Labels) : l.Grows l.next :=
  ⟨Int.le_add_one (Int.le_refl _), fun _ _ h => h, fun _ _ h => Or.inl h⟩

theorem lookup_asked (l : Labels) (s : Symbol) :
    (l.asked s).known.lookup s.key = some (l.labelFor s) := by
  unfold asked labelFor
  cases hKnown : l.known.lookup (s.round, s.index) with
  | some n => exact hKnown
  | none => simp [Symbol.key]

theorem asked_cases (l : Labels) (s : Symbol) :
    (l.asked s = l) ∨ l.known.lookup s.key = none ∧
      l.asked s = { last := l.last + 1, known := (s.key, l.last + 1) :: l.known } := by
  unfold asked
  cases hKnown : l.known.lookup (s.round, s.index) with
  | some n => exact Or.inl rfl
  | none => exact Or.inr ⟨hKnown, rfl⟩

theorem lookup_cons {l : List ((Nat × Nat) × Label)} {k k' : Nat × Nat} {m : Label} :
    ((k', m) :: l).lookup k = some n ↔ (k = k' ∧ m = n) ∨ (k ≠ k' ∧ l.lookup k = some n) := by
  by_cases hk : k = k'
  · subst hk
    simp
  · simp [List.lookup_cons, beq_false_of_ne hk, hk]

theorem asked_valid (h : l.Valid) (s : Symbol) : (l.asked s).Valid := by
  rcases l.asked_cases s with hSame | ⟨_, hNew⟩
  · rw [hSame]
    exact h
  · rw [hNew]
    constructor
    · intro k n hk
      rcases lookup_cons.mp hk with ⟨_, rfl⟩ | ⟨_, hk⟩
      · exact Int.le_refl _
      · exact Int.le_add_one (h.bounded k n hk)
    · intro k k' n hk hk'
      rcases lookup_cons.mp hk with ⟨rfl, hn⟩ | ⟨_, hk⟩ <;>
        rcases lookup_cons.mp hk' with ⟨rfl, hn'⟩ | ⟨_, hk'⟩
      · rfl
      · have hBound := h.bounded k' n hk'
        grind
      · have hBound := h.bounded k n hk
        grind
      · exact h.injective k k' n hk hk'

theorem asked_grows (l : Labels) (s : Symbol) : l.Grows (l.asked s) := by
  rcases l.asked_cases s with hSame | ⟨hNone, hNew⟩
  · rw [hSame]
    exact Grows.refl l
  · rw [hNew]
    refine ⟨Int.le_add_one (Int.le_refl _), fun k n hk => lookup_cons.mpr (Or.inr ⟨?_, hk⟩),
      fun k n hk => ?_⟩
    · rintro rfl
      rw [hNone] at hk
      cases hk
    · rcases lookup_cons.mp hk with ⟨_, rfl⟩ | ⟨_, hk⟩
      · exact Or.inr (Int.lt_add_one_of_le (Int.le_refl _))
      · exact Or.inl hk

/-- The numbers `ns` were given out from `l` to `l'`: to the label statements of `syms`, or to the code
itself. -/
structure Numbers (syms : List Symbol) (l : Labels) (ns : List Label) (l' : Labels) : Prop where
  valid : l'.Valid
  grows : l.Grows l'
  origin : ∀ n ∈ ns, (∃ s ∈ syms, l'.known.lookup s.key = some n) ∨
    l.last < n ∧ n ≤ l'.last ∧ ∀ k, l'.known.lookup k ≠ some n
  distinct : (syms.map Symbol.key).Nodup → ns.Nodup

namespace Numbers

variable {syms syms' : List Symbol} {ns' : List Label}

theorem none (h : l.Valid) : Numbers [] l [] l :=
  ⟨h, Grows.refl l, by simp, by simp⟩

theorem fresh (h : l.Valid) : Numbers [] l [l.last + 1] l.next := by
  refine ⟨next_valid h, next_grows l, fun n hn => Or.inr ?_, by simp⟩
  obtain rfl := List.mem_singleton.mp hn
  refine ⟨by grind, Int.le_refl _, fun k hk => ?_⟩
  have hBound := h.bounded k _ hk
  grind

theorem jump (h : l.Valid) (s : Symbol) : Numbers [] l [] (l.asked s) :=
  ⟨asked_valid h s, asked_grows l s, by simp, by simp⟩

theorem label (h : l.Valid) (s : Symbol) : Numbers [s] l [l.labelFor s] (l.asked s) := by
  refine ⟨asked_valid h s, asked_grows l s, fun n hn => Or.inl ⟨s, by simp, ?_⟩, by simp⟩
  obtain rfl := List.mem_singleton.mp hn
  exact lookup_asked l s

theorem perm (h : Numbers syms l ns l') (hPerm : ns.Perm ns') : Numbers syms l ns' l' :=
  ⟨h.valid, h.grows, fun n hn => h.origin n (hPerm.mem_iff.mpr hn),
    fun hSyms => hPerm.nodup_iff.mp (h.distinct hSyms)⟩

/-- What the code keeps for itself is never given to a statement later. -/
theorem not_known (hBound : n ≤ l₁.last) (hFree : ∀ k, l₁.known.lookup k ≠ some n)
    (h : l₁.Grows l₂) : ∀ k, l₂.known.lookup k ≠ some n := by
  intro k hk
  rcases h.added k n hk with hk | hn
  · exact hFree k hk
  · grind

theorem append (h : Numbers syms l ns l₁) (h' : Numbers syms' l₁ ns' l₂) :
    Numbers (syms ++ syms') l (ns ++ ns') l₂ := by
  refine ⟨h'.valid, h.grows.trans h'.grows, fun n hn => ?_, fun hSyms => ?_⟩
  · have hFirst := h.grows.last
    have hSecond := h'.grows.last
    rcases List.mem_append.mp hn with hn | hn
    · rcases h.origin n hn with ⟨s, hs, hk⟩ | ⟨hLow, hHigh, hFree⟩
      · exact Or.inl ⟨s, List.mem_append_left _ hs, h'.grows.kept _ _ hk⟩
      · exact Or.inr ⟨hLow, by grind, not_known hHigh hFree h'.grows⟩
    · rcases h'.origin n hn with ⟨s, hs, hk⟩ | ⟨hLow, hHigh, hFree⟩
      · exact Or.inl ⟨s, List.mem_append_right _ hs, hk⟩
      · exact Or.inr ⟨by grind, hHigh, hFree⟩
  · rw [List.map_append, List.nodup_append] at hSyms
    obtain ⟨hLeft, hRight, hApart⟩ := hSyms
    refine List.nodup_append.mpr ⟨h.distinct hLeft, h'.distinct hRight, ?_⟩
    rintro n hn _ hn' rfl
    rcases h.origin n hn with ⟨s, hs, hk⟩ | ⟨_, hHigh, hFree⟩ <;>
      rcases h'.origin n hn' with ⟨s', hs', hk'⟩ | ⟨hLow', _, _⟩
    · have hKey := h'.valid.injective _ _ n (h'.grows.kept _ _ hk) hk'
      exact hApart _ (List.mem_map_of_mem hs) _ (List.mem_map_of_mem hs') hKey
    · have hBound := h.valid.bounded _ _ hk
      grind
    · exact not_known hHigh hFree h'.grows _ hk'
    · grind

end Numbers
end Labels

/-- How code with the given notes comes by the labels `ns` that stand in it and the labels `ts` to which it
jumps, where those that were given out before are `l`, and `l'` those given out at its end. The code takes a
label for itself before it goes on: one behind it, to which it jumps before anything else, or one before it,
to which it jumps back. -/
inductive Laid : List Note → Labels → List Label → List Label → Labels → Prop where
  | none {notes : List Note} (l : Labels) (hLabels : labelsIn notes = []) (hJumps : jumpsIn notes = []) :
      Laid notes l [] [] l
  | append {notes notes' : List Note} {l l₁ l' : Labels} {ns ns' ts ts' : List Label}
    (h : Laid notes l ns ts l₁)
      (h' : Laid notes' l₁ ns' ts' l') : Laid (notes ++ notes') l (ns ++ ns') (ts ++ ts') l'
  | jump (l : Labels) (s : Symbol) : Laid [.uses .label (some s)] l [] [l.labelFor s] (l.asked s)
  | label (l : Labels) (s : Symbol) : Laid [.declares .label .void (some s)] l [l.labelFor s] [] (l.asked s)
  | exit {notes : List Note} {l l' : Labels} {ns before ts : List Label} (h : Laid notes l.next ns ts l')
      (hBefore : ∀ n ∈ before, n = l.last + 1) : Laid notes l (ns ++ [l.last + 1]) (before ++ ts) l'
  | loop {notes : List Note} {l l' : Labels} {ns ts : List Label} (h : Laid notes l.next ns ts l') :
      Laid notes l ((l.last + 1) :: ns) (ts ++ [l.last + 1]) l'

namespace Laid

open Labels (Numbers)

theorem straight (h : Straight c) (hLabels : labelsIn notes = []) (hJumps : jumpsIn notes = []) :
    Laid notes l (labelsOf c) (targetsOf c) l := by
  obtain ⟨hNone, hNowhere⟩ := labels_of_straight h
  rw [hNone, hNowhere]
  exact .none l hLabels hJumps

theorem numbers {ts : List Label} (h : Laid notes l ns ts l') (hl : l.Valid) :
    Numbers (labelsIn notes) l ns l' := by
  induction h with
  | none l hLabels =>
    rw [hLabels]
    exact Numbers.none hl
  | append _ _ ih ih' =>
    rw [labelsIn_append]
    exact (ih hl).append (ih' (ih hl).valid)
  | jump l s => exact Numbers.jump hl s
  | label l s => exact Numbers.label hl s
  | exit _ _ ih =>
    have hFresh := Numbers.fresh hl
    exact (hFresh.append (ih hFresh.valid)).perm List.perm_append_comm
  | loop _ ih =>
    have hFresh := Numbers.fresh hl
    exact hFresh.append (ih hFresh.valid)

end Laid

namespace Stmt

open Labels (Numbers)

variable {e : Surroundings}

theorem branchNot_labels {x : Expr} (h : branchNot e x n = .ok c) : labelsOf c = [] ∧ targetsOf c = [n] :=
    by
  simp only [branchNot, bind_eq_ok, pure_eq_ok] at h
  obtain ⟨cx, hx, t, _, rfl⟩ := h
  obtain ⟨hNone, hNowhere⟩ := labels_of_straight (Expr.code_straight x cx hx)
  rw [labelsOf_append, targetsOf_append, hNone, hNowhere]
  exact ⟨rfl, rfl⟩

theorem loopTest_labels {x : Expr} (h : loopTest e x n = .ok c) :
    labelsOf c = [] ∧ ∀ m ∈ targetsOf c, m = n := by
  unfold loopTest at h
  split at h
  · cases h
    simp
  · obtain ⟨hNone, hTarget⟩ := branchNot_labels h
    simp [hNone, hTarget]

theorem codeAll_laid
    (ih : ∀ s ∈ ss, ∀ l c l', code e s l = .ok (c, l') → Laid s.notes l (labelsOf c) (targetsOf c) l')
    (h : codeAll e ss l = .ok (c, l')) : Laid (notesAll ss) l (labelsOf c) (targetsOf c) l' := by
  induction ss generalizing l c with
  | nil =>
    obtain ⟨rfl, rfl⟩ := codeAll_nil.mp h
    exact .none l rfl rfl
  | cons s ss ihList =>
    obtain ⟨first, rest, l₁, hFirst, hRest, rfl⟩ := codeAll_cons.mp h
    rw [labelsOf_append, targetsOf_append]
    exact (ih s (by simp) _ _ _ hFirst).append (ihList (fun t ht => ih t (by simp [ht])) hRest)

/-- The labels in the code of a statement, and where it jumps. -/
theorem code_laid (s : Stmt) (l : Labels) (c : List Instr) (l' : Labels) (h : code e s l = .ok (c, l')) :
    Laid s.notes l (labelsOf c) (targetsOf c) l' := by
  have hExpr : ∀ (x : Expr) (l : Labels), Laid x.notes l [] [] l :=
    fun x l => .none l x.labelsIn_notes x.jumpsIn_notes
  have hExprs : ∀ (es : List Expr) (l : Labels), Laid (Expr.notesAll es) l [] [] l :=
    fun es l => .none l (Expr.labelsIn_notesAll es) (Expr.jumpsIn_notesAll es)
  induction s generalizing l c l' with
  | missing =>
    obtain ⟨rfl, rfl⟩ := code_missing.mp h
    exact .none l rfl rfl
  | empty p =>
    obtain ⟨rfl, rfl⟩ := code_empty.mp h
    exact .none l rfl rfl
  | block p scope ss ih => exact codeAll_laid ih (code_block.mp h)
  | expr p x =>
    obtain ⟨hDiscard, rfl⟩ := code_expr.mp h
    exact .straight (Expr.discard_straight x c hDiscard) x.labelsIn_notes x.jumpsIn_notes
  | decl p name ty x entry =>
    obtain ⟨sym, first, _, hFirst, rfl, rfl⟩ := code_decl.mp h
    have hStore : Straight [.store false ty (e.offset sym) "" false] := .single rfl
    rw [labelsOf_append, targetsOf_append]
    exact (Laid.straight (initCode_straight hFirst) x.labelsIn_notes x.jumpsIn_notes).append
      (.straight hStore rfl rfl)
  | ifThen p x ts t es f iht ihf =>
    obtain rfl | hElse := f.missing_or_present
    · obtain ⟨test, first, hTest, hFirst, rfl⟩ := code_ifThen_missing.mp h
      obtain ⟨hNone, hSkip⟩ := branchNot_labels hTest
      have hThen := (iht _ _ _ hFirst).exit fun n hn => List.mem_singleton.mp (hSkip ▸ hn)
      simpa [notes, hNone] using (hExpr x l).append hThen
    · obtain ⟨test, first, second, l₁, hTest, hFirst, hSecond, rfl⟩ := (code_ifThen hElse).mp h
      obtain ⟨hNone, hSkip⟩ := branchNot_labels hTest
      have hThen := (iht _ _ _ hFirst).exit fun n hn => List.mem_singleton.mp (hSkip ▸ hn)
      have hDone : ∀ n ∈ [l₁.last + 1], n = l₁.last + 1 := by simp
      have hOther := (ihf _ _ _ hSecond).exit hDone
      simpa [notes, hNone] using ((hExpr x l).append hThen).append hOther
  | whileLoop p x bs b ih =>
    obtain ⟨test, body, hTest, hBody, rfl⟩ := code_while.mp h
    obtain ⟨hNone, hDone⟩ := branchNot_labels hTest
    have hLoop := ((ih _ _ _ hBody).exit fun n hn => List.mem_singleton.mp (hDone ▸ hn)).loop
    simpa [notes, hNone] using (hExpr x l).append hLoop
  | doWhile p bs b x ih =>
    simp only [code, emits_bind_eq, emits_lift_eq, emits_pure_eq, emits_fresh_eq] at h
    obtain ⟨_, _, ⟨rfl, rfl⟩, body, _, hBody, test, _, ⟨hTest, rfl⟩, t, _, ⟨_, rfl⟩, rfl,
      rfl⟩ := h
    obtain ⟨hNone, hNowhere⟩ := labels_of_straight (Expr.code_straight x test hTest)
    simpa [notes, hNone, hNowhere] using (ih _ _ _ hBody).loop.append (hExpr x _)
  | forLoop p init x step bs b ih =>
    obtain ⟨first, test, body, last, hFirst, hTest, hBody, hLast, rfl⟩ := code_for.mp h
    obtain ⟨hInit, hInit'⟩ := labels_of_straight (Expr.discardAll_straight hFirst)
    obtain ⟨hStep, hStep'⟩ := labels_of_straight (Expr.discardAll_straight hLast)
    obtain ⟨hNone, hDone⟩ := loopTest_labels hTest
    have hLoop := ((ih _ _ _ hBody).exit hDone).loop
    simpa [notes, hInit, hInit', hStep, hStep', hNone] using
      (((hExprs init l).append (hExpr x l)).append (hExprs step l)).append hLoop
  | jump p name entry =>
    obtain ⟨s, rfl, rfl, rfl⟩ := code_jump.mp h
    exact .jump l s
  | label p name entry =>
    obtain ⟨s, rfl, rfl, rfl⟩ := code_label.mp h
    exact .label l s
  | ret p x =>
    obtain ⟨value, hValue, rfl, rfl⟩ := code_ret.mp h
    have hExit : labelsOf e.exit = [] ∧ targetsOf e.exit = [] := ⟨rfl, rfl⟩
    rw [labelsOf_append, targetsOf_append, hExit.1, hExit.2, List.append_nil, List.append_nil]
    exact .straight (resultCode_straight hValue) x.labelsIn_notes x.jumpsIn_notes
  | goto p name entry =>
    obtain ⟨s, _, rfl, rfl⟩ := code_goto.mp h
    exact .none l rfl rfl

theorem codeAll_numbers (hl : l.Valid) (h : codeAll e ss l = .ok (c, l')) :
    Numbers (labelsIn (notesAll ss)) l (labelsOf c) l' :=
  (codeAll_laid (fun s _ => s.code_laid) h).numbers hl

/-- The labels in the code of a statement are those of its label statements and new ones. -/
theorem code_numbers (s : Stmt) (l : Labels) (c : List Instr) (l' : Labels) (hl : l.Valid)
    (h : code e s l = .ok (c, l')) : Numbers (labelsIn s.notes) l (labelsOf c) l' :=
  (s.code_laid l c l' h).numbers hl

end Stmt
end Lsl
