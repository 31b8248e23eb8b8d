import Lsl.Proofs.Labels

/-! Where jumps go. A jump that the code needs for itself goes to a label of the same statement, and one of
the script to the number of the label statement to which it is bound, so that the code of a body defines every
label to which it jumps. -/
namespace Lsl

variable {l m : Labels} {n : Label}

namespace Labels

def number? (l : Labels) (s : Symbol) : Option Label := l.known.lookup s.key

def isNamed (l : Labels) (n : Label) : Bool := l.known.any fun e => l.known.lookup e.1 == some n

theorem isNamed_iff : l.isNamed n = true ↔ ∃ k, l.known.lookup k = some n := by
  simp only [isNamed, List.any_eq_true, beq_iff_eq]
  constructor
  · rintro ⟨e, _, hNumber⟩
    exact ⟨e.1, hNumber⟩
  · rintro ⟨k, hk⟩
    obtain ⟨front, rest, hSplit, _⟩ := List.lookup_eq_some_iff.mp hk
    exact ⟨(k, n), by simp [hSplit], hk⟩

/-- A number that the code takes for itself is that of no label statement, then or later. -/
theorem isNamed_fresh (hl : l.Valid) (hGrows : l.next.Grows m) :
    m.isNamed (l.last + 1) = false := by
  have hFree : ∀ k, l.next.known.lookup k ≠ some (l.last + 1) := by
    intro k hk
    have hBound := hl.bounded k _ hk
    grind
  rw [← Bool.not_eq_true, isNamed_iff]
  rintro ⟨k, hk⟩
  exact Numbers.not_known (Int.le_refl _) hFree hGrows k hk

theorem isNamed_asked {s : Symbol} (hGrows : (l.asked s).Grows m) :
    m.isNamed (l.labelFor s) = true ∧ m.number? s = some (l.labelFor s) := by
  have hKnown := hGrows.kept _ _ (l.lookup_asked s)
  exact ⟨isNamed_iff.mpr ⟨_, hKnown⟩, hKnown⟩

end Labels

/-- In code with the given notes, the label statements and the jump statements have the numbers of their
symbols, in the order of the notes. All other labels and jumps belong to the code itself. -/
structure Named (notes : List Note) (m : Labels) (c : List Instr) : Prop where
  labels : ((labelsOf c).filter m.isNamed).map some = (labelsIn notes).map m.number?
  jumps : ((targetsOf c).filter m.isNamed).map some = (jumpsIn notes).map m.number?

/-- Code in which moreover each jump that is not for a jump statement goes to a label of the code. -/
structure Closes (notes : List Note) (m : Labels) (c : List Instr) : Prop extends Named notes m c where
  own : ∀ n ∈ targetsOf c, m.isNamed n = false → n ∈ labelsOf c

variable {notes : List Note} {c : List Instr}

/-- The numbers of labels and jumps tell those of the notes. -/
theorem Laid.closes {l' : Labels} {ns ts : List Label} (h : Laid notes l ns ts l') (hl : l.Valid)
    (hGrows : l'.Grows m) : (ns.filter m.isNamed).map some = (labelsIn notes).map m.number? ∧
      (ts.filter m.isNamed).map some = (jumpsIn notes).map m.number? ∧
      ∀ n ∈ ts, m.isNamed n = false → n ∈ ns := by
  induction h with
  | none l hLabels hJumps => simp [hLabels, hJumps]
  | append h h' ih ih' =>
    have hValid := (h.numbers hl).valid
    obtain ⟨hLabels, hJumps, hOwn⟩ := ih hl ((h'.numbers hValid).grows.trans hGrows)
    obtain ⟨hLabels', hJumps', hOwn'⟩ := ih' hValid hGrows
    simp only [List.filter_append, List.map_append, labelsIn_append, jumpsIn_append, hLabels, hLabels',
      hJumps, hJumps', List.mem_append, true_and]
    exact fun n hn hNone => hn.imp (hOwn n · hNone) (hOwn' n · hNone)
  | jump l s =>
    obtain ⟨hNamed, hNumber⟩ := Labels.isNamed_asked hGrows
    simp [hNamed, hNumber, jumpsIn, Note.jump?, labelsIn, Note.label?]
  | label l s =>
    obtain ⟨hNamed, hNumber⟩ := Labels.isNamed_asked hGrows
    simp [hNamed, hNumber, jumpsIn, Note.jump?, labelsIn, Note.label?]
  | @exit _ _ _ _ before _ h hBefore ih =>
    have hNext := Labels.next_valid hl
    have hFresh := Labels.isNamed_fresh hl ((h.numbers hNext).grows.trans hGrows)
    obtain ⟨hLabels, hJumps, hOwn⟩ := ih hNext hGrows
    have hLeaves : before.filter m.isNamed = [] :=
      List.filter_eq_nil_iff.mpr fun n hn => by simp [hBefore n hn, hFresh]
    refine ⟨by simp [hFresh, hLabels], by simp [hLeaves, hJumps], fun n hn hNone => ?_⟩
    rcases List.mem_append.mp hn with hn | hn
    · simp [hBefore n hn]
    · simp [hOwn n hn hNone]
  | loop h ih =>
    have hNext := Labels.next_valid hl
    have hFresh := Labels.isNamed_fresh hl ((h.numbers hNext).grows.trans hGrows)
    obtain ⟨hLabels, hJumps, hOwn⟩ := ih hNext hGrows
    refine ⟨by simp [hFresh, hLabels], by simp [hFresh, hJumps], fun n hn hNone => ?_⟩
    rcases List.mem_append.mp hn with hn | hn
    · simp [hOwn n hn hNone]
    · simp [List.mem_singleton.mp hn]

/-- Where each jump statement is bound to one of the label statements, all jumps go to labels of the code. -/
theorem Closes.targets (h : Closes notes m c) (hBound : jumpsIn notes ⊆ labelsIn notes) :
    ∀ n ∈ targetsOf c, n ∈ labelsOf c := by
  intro n hn
  cases hNamed : m.isNamed n with
  | false => exact h.own n hn hNamed
  | true =>
    have hNumber : some n ∈ (jumpsIn notes).map m.number? := by
      rw [← h.jumps]
      exact List.mem_map_of_mem (List.mem_filter.mpr ⟨hn, hNamed⟩)
    obtain ⟨s, hs, hNumber⟩ := List.mem_map.mp hNumber
    have hLabel : some n ∈ ((labelsOf c).filter m.isNamed).map some := by
      rw [h.labels, ← hNumber]
      exact List.mem_map_of_mem (hBound hs)
    obtain ⟨k, hk, hSame⟩ := List.mem_map.mp hLabel
    cases hSame
    exact (List.mem_filter.mp hk).1

/-- The code of statements gives the label and jump statements in it the numbers of their symbols. -/
theorem Stmt.codeAll_closes {e : Surroundings} {ss : List Stmt} {l' : Labels} (hl : l.Valid)
    (h : codeAll e ss l = .ok (c, l')) (hGrows : l'.Grows m) : Closes (notesAll ss) m c := by
  obtain ⟨hLabels, hJumps, hOwn⟩ := (codeAll_laid (fun s _ => s.code_laid) h).closes hl hGrows
  exact ⟨⟨hLabels, hJumps⟩, hOwn⟩

end Lsl
