import Lsl.Proofs.Flow
import Mathlib.Data.List.Nodup

/-! Code within reach. A sequence of statements ends at a return or a change of state, and what follows
is dead up to the next label. In a body whose live part is in order, control leaves the live part only
by a jump to a label in dead code, and such a label must be the whole body of a control statement:
jumps see no other labels there. -/
namespace Lsl

open List

variable {ended : Bool} {sym : Symbol} {k : List Task} {n : Nat} {ss : List Stmt} {s : TaskState}

namespace Stmt

def isLabel : Stmt → Bool
  | label .. => true
  | _ => false

mutual

/-- Whether each way through a statement ends the body. -/
def ends : Stmt → Bool
  | block _ _ ss => endsAll false ss
  | ret .. | goto .. => true
  | ifThen _ _ _ t _ e => ends t && ends e
  | doWhile _ _ b _ => ends b
  | missing | expr .. | decl .. | .while .. | .for .. | jump .. | label .. | empty _ => false

/-- Whether each way through a sequence ends the body, where what comes before it may have ended it. -/
def endsAll (ended : Bool) : List Stmt → Bool
  | [] => ended
  | s :: ss => endsAll (!s.isLabel && (ended || ends s)) ss

end

mutual

def live : Stmt → List Stmt
  | block p scope ss => block p scope ss :: liveAll false ss
  | ifThen p c ts t es e => ifThen p c ts t es e :: (live t ++ live e)
  | .while p c bs b => .while p c bs b :: live b
  | doWhile p bs b c => doWhile p bs b c :: live b
  | .for p init c step bs b => .for p init c step bs b :: live b
  | s => [s]

def liveAll (ended : Bool) : List Stmt → List Stmt
  | [] => []
  | s :: ss =>
    (if ended && !s.isLabel then [] else live s) ++ liveAll (!s.isLabel && (ended || s.ends)) ss

end

mutual

/-- The statements of live sequences in a live statement that are dead. -/
def dead : Stmt → List Stmt
  | block _ _ ss => deadAll false ss
  | ifThen _ _ _ t _ e => dead t ++ dead e
  | .while _ _ _ b | doWhile _ _ b _ | .for _ _ _ _ _ b => dead b
  | missing | expr .. | decl .. | jump .. | label .. | ret .. | goto .. | empty _ => []

def deadAll (ended : Bool) : List Stmt → List Stmt
  | [] => []
  | s :: ss =>
    (if ended && !s.isLabel then [s] else dead s) ++ deadAll (!s.isLabel && (ended || s.ends)) ss

end

def liveLabels (ss : List Stmt) : List Symbol := (liveAll false ss).filterMap label?

/-- The labels in dead code that are in sight of the live code: the bodies of dead control
statements. -/
def strayLabels (ss : List Stmt) : List Symbol := (deadAll false ss).flatMap bodyLabels

attribute [local simp] live liveAll dead deadAll

theorem mem_live_self (s : Stmt) : s ∈ s.live := by
  cases s <;> simp

/-- A statement in a sequence is dead or live. -/
theorem skipped_cases (ended : Bool) (s : Stmt) :
    (ended = true ∧ s.isLabel = false) ∨ (ended && !s.isLabel) = false := by
  cases ended <;> cases s.isLabel <;> simp

theorem label?_of_not_isLabel {s : Stmt} (h : s.isLabel = false) : s.label? = none := by
  cases s with
  | label p name entry => cases h
  | _ => rfl

theorem bodyLabels_live (s : Stmt) : s.bodyLabels ⊆ s.live.filterMap label? := by
  intro sym hs
  cases s with
  | ifThen p c ts t es e =>
    rcases List.mem_append.mp hs with hs | hs
    · exact List.mem_filterMap.mpr ⟨t, by simp [mem_live_self], by simpa using hs⟩
    · exact List.mem_filterMap.mpr ⟨e, by simp [mem_live_self], by simpa using hs⟩
  | «while» p c bs b | doWhile p bs b c | «for» p init c step bs b =>
    exact List.mem_filterMap.mpr ⟨b, by simp [mem_live_self], by simpa [bodyLabels] using hs⟩
  | _ => cases hs

/-- The labels that a live statement adds to its scope are live. -/
theorem own_live (s : Stmt) : s.own ⊆ s.live.filterMap label? := by
  intro sym hs
  rcases List.mem_append.mp hs with hs | hs
  · exact List.mem_filterMap.mpr ⟨s, s.mem_live_self, by simpa using hs⟩
  · exact bodyLabels_live s hs

/-- The labels of the scope of a sequence are live or in dead control statements. -/
theorem ownAll_live (ended : Bool) (ss : List Stmt) :
    ownAll ss ⊆ (liveAll ended ss).filterMap label? ++ (deadAll ended ss).flatMap bodyLabels := by
  induction ss generalizing ended with
  | nil => simp [ownAll]
  | cons s ss ih =>
    intro sym hs
    simp only [ownAll, flatMap_cons, mem_append] at hs
    simp only [liveAll, deadAll, filterMap_append, flatMap_append, mem_append]
    rcases hs with hs | hs
    · rcases skipped_cases ended s with ⟨rfl, hLabel⟩ | hLive
      · simp only [own, label?_of_not_isLabel hLabel] at hs
        simp [hLabel, show sym ∈ s.bodyLabels from hs]
      · simp [hLive, List.mem_filterMap.mp (own_live s hs)]
    · rcases List.mem_append.mp (ih _ hs) with hs | hs
      · exact Or.inl (Or.inr hs)
      · exact Or.inr (Or.inr hs)

/-- A statement that is no jump, or a jump to one of the labels. -/
def JumpsInto (ls : List Symbol) : Stmt → Prop
  | jump _ _ entry => ∃ sym, entry = some sym ∧ sym ∈ ls
  | _ => True

theorem liveAll_jumps {ls here around : List Symbol}
    (ih : ∀ s ∈ ss, ∀ here around, s.Scoped here around → here ⊆ ls → around ⊆ ls →
      s.live.filterMap label? ⊆ ls → s.dead.flatMap bodyLabels ⊆ ls → ∀ t ∈ s.live, t.JumpsInto
        ls)
    (h : ScopedAll here around ss) (hHere : here ⊆ ls) (hAround : around ⊆ ls)
    (hLive : (liveAll ended ss).filterMap label? ⊆ ls) (hDead : (deadAll ended ss).flatMap bodyLabels ⊆
      ls) :
    ∀ t ∈ liveAll ended ss, t.JumpsInto ls := by
  induction ss generalizing ended with
  | nil => simp
  | cons s ss ihList =>
    simp only [mem_cons, forall_eq_or_imp] at ih
    simp only [liveAll, filterMap_append, append_subset] at hLive
    simp only [deadAll, flatMap_append, append_subset] at hDead
    have hTail := ihList ih.2 h.2 hLive.2 hDead.2
    simp only [liveAll, mem_append, or_imp, forall_and]
    refine ⟨?_, hTail⟩
    cases hSkip : ended && !s.isLabel with
    | true => simp
    | false =>
      simp only [hSkip, Bool.false_eq_true, if_false] at hLive hDead ⊢
      exact ih.1 here around h.1 hHere hAround hLive.1 hDead.1

/-- Where the labels in sight are all among `ls`, so are the targets of the live jumps. -/
theorem live_jumps {ls : List Symbol} (s : Stmt) (here around : List Symbol) (h : s.Scoped here around)
    (hHere : here ⊆ ls) (hAround : around ⊆ ls) (hLive : s.live.filterMap label? ⊆ ls)
    (hDead : s.dead.flatMap bodyLabels ⊆ ls) : ∀ t ∈ s.live, t.JumpsInto ls := by
  induction s generalizing here around with
  | block p scope ss ih =>
    have hLive : (liveAll false ss).filterMap label? ⊆ ls := hLive
    have hOwn : ownAll ss ⊆ ls :=
      List.Subset.trans (ownAll_live false ss) (List.append_subset.mpr ⟨hLive, hDead⟩)
    have hChain := List.append_subset.mpr ⟨hOwn, hAround⟩
    simp only [live, mem_cons, forall_eq_or_imp]
    exact ⟨trivial, liveAll_jumps ih h hChain hChain hLive hDead⟩
  | ifThen p c ts t es e iht ihe =>
    simp only [live, filterMap_cons, label?, filterMap_append, append_subset] at hLive
    simp only [dead, flatMap_append, append_subset] at hDead
    have hBody := fun s (hs : s.live.filterMap label? ⊆ ls) =>
      List.append_subset.mpr ⟨List.Subset.trans (own_live s) hs, hAround⟩
    simp only [live, mem_cons, mem_append, or_imp, forall_and, forall_eq]
    exact ⟨trivial, iht _ _ h.1 hHere (hBody t hLive.1) hLive.1 hDead.1,
      ihe _ _ h.2 hHere (hBody e hLive.2) hLive.2 hDead.2⟩
  | whileLoop p c bs b ih | doWhile p bs b c ih | forLoop p init c step bs b ih =>
    have hLive : b.live.filterMap label? ⊆ ls := hLive
    simp only [live, mem_cons, forall_eq_or_imp]
    have hBody := List.append_subset.mpr ⟨List.Subset.trans (own_live b) hLive, hAround⟩
    exact ⟨trivial, ih _ _ h hHere hBody hLive hDead⟩
  | jump p l entry =>
    intro t ht
    cases List.mem_singleton.mp ht
    obtain ⟨sym, hEntry, hs⟩ := h
    exact ⟨sym, hEntry, hHere hs⟩
  | _ =>
    intro t ht
    cases List.mem_singleton.mp ht
    trivial

/-- The live jumps of a body go to live labels or to stray ones. -/
theorem jumpsInto_of_scoped {p : Pos} {scope : Option Scope} (h : Scoped [] [] (block p scope ss)) :
    ∀ t ∈ liveAll false ss, t.JumpsInto (liveLabels ss ++ strayLabels ss) := by
  have hJumps := live_jumps (block p scope ss) [] [] h (nil_subset _) (nil_subset _)
    (subset_append_left (liveLabels ss) (strayLabels ss)) (subset_append_right ..)
  exact fun t ht => hJumps t (mem_cons_of_mem _ ht)

theorem live_labels_subset_all (ih : ∀ s ∈ ss, s.live.filterMap label? ⊆ labelsIn s.notes) :
    (liveAll ended ss).filterMap label? ⊆ labelsIn (notesAll ss) := by
  induction ss generalizing ended with
  | nil => simp
  | cons s ss ihList =>
    simp only [mem_cons, forall_eq_or_imp] at ih
    simp only [liveAll, notesAll, filterMap_append, labelsIn_append]
    refine List.append_subset.mpr ⟨?_, subset_append_of_subset_right _ (ihList ih.2)⟩
    split
    · exact nil_subset _
    · exact subset_append_of_subset_left _ ih.1

/-- Live labels are labels. -/
theorem live_labels_subset (s : Stmt) : s.live.filterMap label? ⊆ labelsIn s.notes := by
  induction s with
  | block p scope ss ih => exact live_labels_subset_all ih
  | ifThen p c ts t es e iht ihe =>
    simp only [live, filterMap_cons, label?, filterMap_append, labelsIn_ifThen]
    exact List.append_subset.mpr ⟨subset_append_of_subset_left _ iht,
      subset_append_of_subset_right _ ihe⟩
  | whileLoop p c bs b ih =>
    rw [labelsIn_while]
    exact ih
  | doWhile p bs b c ih =>
    rw [labelsIn_doWhile]
    exact ih
  | forLoop p init c step bs b ih =>
    rw [labelsIn_for]
    exact ih
  | label p name entry => cases entry <;> exact List.Subset.refl _
  | _ => exact nil_subset _

end Stmt

section safety

variable {P : Stmt → Prop} {result : Ty}

/-- What remains of a body is safe: all that is live in it is as it should be, and its end is reached
only where there is no result. What follows a statement that ends the body does not matter. -/
def Safe (P : Stmt → Prop) (result : Ty) : List Task → Prop
  | [] => result = .void
  | .stmt s :: k => (∀ t ∈ s.live, P t) ∧ (s.ends = true ∨ Safe P result k)
  | .eval _ :: k => Safe P result k
  | .loop _ _ b :: k => (∀ t ∈ b.live, P t) ∧ Safe P result k
  | .again b _ :: k => (∀ t ∈ b.live, P t) ∧ Safe P result k

theorem safe_evals {es : List Expr} (h : Safe P result k) : Safe P result (es.map .eval ++ k) := by
  induction es with
  | nil => exact h
  | cons e es ih => exact ih

/-- The statements of a sequence are safe one after the other. -/
theorem safe_stmts (hLive : ∀ t ∈ Stmt.liveAll false ss, P t)
    (hEnd : Stmt.endsAll false ss = true ∨ Safe P result k) : Safe P result (ss.map .stmt ++ k) := by
  induction ss with
  | nil => simpa [Stmt.endsAll] using hEnd
  | cons s ss ih =>
    simp only [Stmt.liveAll, Bool.false_and, Bool.false_eq_true, if_false, Bool.false_or,
      mem_append, or_imp, forall_and] at hLive
    simp only [Stmt.endsAll, Bool.false_or] at hEnd
    refine ⟨hLive.1, ?_⟩
    cases hEnds : s.ends with
    | true => exact Or.inl rfl
    | false =>
      simp only [hEnds, Bool.and_false] at hLive hEnd
      exact Or.inr (ih hLive.2 hEnd)

namespace Stmt

theorem afterAll?_safe {k' : List Task}
    (ih : ∀ s ∈ ss, ∀ k k', sym ∈ s.live.filterMap label? → (labelsIn s.notes).Nodup →
      (∀ t ∈ s.live, P t) → (s.ends = true ∨ Safe P result k) → s.after? sym k = some k' →
        Safe P result k')
    (hSym : sym ∈ (liveAll ended ss).filterMap label?) (hDistinct : (labelsIn (notesAll ss)).Nodup)
    (hLive : ∀ t ∈ liveAll ended ss, P t) (hEnd : endsAll ended ss = true ∨ Safe P result k)
    (h : afterAll? sym ss k = some k') :
    Safe P result k' := by
  induction ss generalizing ended with
  | nil => cases h
  | cons s ss ihList =>
    simp only [mem_cons, forall_eq_or_imp] at ih
    simp only [liveAll, filterMap_append, mem_append, or_imp, forall_and] at hSym hLive
    simp only [endsAll] at hEnd
    rw [notesAll, labelsIn_append, nodup_append] at hDistinct
    simp only [afterAll?, Option.or_eq_some_iff] at h
    rcases h with h | ⟨_, h⟩
    · -- The label stands in the first statement, so it is not among the live labels of the others.
      have hFirst := (after?_isSome s _).mp (Option.isSome_of_eq_some h)
      have hHere := hSym.resolve_right fun hLater => hDistinct.2.2 sym hFirst sym
        (live_labels_subset_all (fun s _ => s.live_labels_subset) hLater) rfl
      cases hSkip : ended && !s.isLabel with
      | true => simp [hSkip] at hHere
      | false =>
        simp only [hSkip, Bool.false_eq_true, if_false] at hHere hLive
        refine ih.1 _ _ hHere hDistinct.1 hLive.1 ?_ h
        cases hEnds : s.ends with
        | true => exact Or.inl rfl
        | false =>
          rw [hEnds, Bool.or_false, Bool.and_comm, hSkip] at hLive hEnd
          exact Or.inr (safe_stmts hLive.2 hEnd)
    · -- The label stands in a later statement, so it is not in the first one.
      have hLater := (afterAll?_isSome (fun s _ => s.after?_isSome) _).mp (Option.isSome_of_eq_some h)
      refine ihList ih.2 (hSym.resolve_left fun hFirst => ?_) hDistinct.2.1 hLive.2 hEnd h
      split at hFirst
      · cases hFirst
      · exact hDistinct.2.2 sym (live_labels_subset s hFirst) sym hLater rfl

/-- What remains after a live label is safe. -/
theorem after?_safe (s : Stmt) (k k' : List Task) (hSym : sym ∈ s.live.filterMap label?)
    (hDistinct : (labelsIn s.notes).Nodup) (hLive : ∀ t ∈ s.live, P t)
    (hEnd : s.ends = true ∨ Safe P result k) (h : s.after? sym k = some k') : Safe P result k' := by
  induction s generalizing k k' with
  | block p scope ss ih =>
    exact afterAll?_safe ih hSym hDistinct (fun t ht => hLive t (mem_cons_of_mem _ ht)) hEnd h
  | ifThen p c ts t es e iht ihe =>
    simp only [live, filterMap_cons, label?, filterMap_append, mem_append] at hSym
    rw [labelsIn_ifThen, nodup_append] at hDistinct
    simp only [live, mem_cons, mem_append, or_imp, forall_and] at hLive
    simp only [ends, Bool.and_eq_true] at hEnd
    simp only [after?, Option.or_eq_some_iff] at h
    rcases h with h | ⟨_, h⟩
    · have hHere := hSym.resolve_right fun hElse =>
        hDistinct.2.2 sym ((after?_isSome t _).mp (Option.isSome_of_eq_some h)) sym
          (live_labels_subset e hElse) rfl
      exact iht _ _ hHere hDistinct.1 hLive.2.1 (hEnd.imp_left And.left) h
    · have hHere := hSym.resolve_left fun hThen =>
        hDistinct.2.2 sym (live_labels_subset t hThen) sym
          ((after?_isSome e _).mp (Option.isSome_of_eq_some h)) rfl
      exact ihe _ _ hHere hDistinct.2.1 hLive.2.2 (hEnd.imp_left And.right) h
  | whileLoop p c bs b ih =>
    rw [labelsIn_while] at hDistinct
    have hBody : ∀ t ∈ b.live, P t := fun t ht => hLive t (mem_cons_of_mem _ ht)
    have hRest : Safe P result (.loop c [] b :: k) := ⟨hBody, hEnd.resolve_left (by simp [ends])⟩
    exact ih _ _ hSym hDistinct hBody (Or.inr hRest) h
  | doWhile p bs b c ih =>
    rw [labelsIn_doWhile] at hDistinct
    have hBody : ∀ t ∈ b.live, P t := fun t ht => hLive t (mem_cons_of_mem _ ht)
    have hRest : b.ends = true ∨ Safe P result (.again b c :: k) :=
      hEnd.imp_right fun hRest => ⟨hBody, hRest⟩
    exact ih _ _ hSym hDistinct hBody hRest h
  | forLoop p init c step bs b ih =>
    rw [labelsIn_for] at hDistinct
    have hBody : ∀ t ∈ b.live, P t := fun t ht => hLive t (mem_cons_of_mem _ ht)
    have hRest : Safe P result (.loop c step b :: k) := ⟨hBody, hEnd.resolve_left (by simp [ends])⟩
    exact ih _ _ hSym hDistinct hBody (Or.inr (safe_evals hRest)) h
  | label p name entry =>
    simp only [after?, Option.ite_none_right_eq_some, Option.some.injEq] at h
    exact h.2 ▸ hEnd.resolve_left (by simp [ends])
  | _ =>
    cases h

end Stmt
end safety

namespace Stmt

/-- A return that agrees with the result of the body. -/
def Agrees (result : Ty) : Stmt → Prop
  | ret _ x => x.isMissing = true ↔ result = .void
  | _ => True

end Stmt

namespace TaskState

/-- The body is about to be left in a way that its result does not allow: at its end though there is a
result, by a return without a value though there is one, or by a return with a value though there is
none. -/
def Misleaves (result : Ty) (s : TaskState) : Prop :=
  match s.tasks with
  | [] => result ≠ .void
  | .stmt t :: _ => ¬ t.Agrees result
  | _ => False

/-- The next thing to be done is a jump to the label. -/
def Jumps (sym : Symbol) (s : TaskState) : Prop :=
  ∃ p name k, s.tasks = .stmt (.jump p name (some sym)) :: k

end TaskState

/-- The state to which a body comes after `n` steps from its beginning, where the oracle decides its
tests. -/
def Arrives (result : Ty) (ss : List Stmt) (oracle : Nat → Bool) (n : Nat) (s : TaskState) : Prop :=
  ((taskMachine result ss oracle).run n ⟨ss.map .stmt, 0⟩).2 = some s

/-- What is required of a live statement in the body `ss`. -/
structure Stmt.Fits (result : Ty) (ss : List Stmt) (t : Stmt) : Prop where
  agrees : t.Agrees result
  jumps : t.JumpsInto (liveLabels ss ++ strayLabels ss)

/-- A body whose live part is in order: it ends in all ways if there is a result, its returns agree with
the result, and its jumps go to live labels or to stray ones. -/
structure Orderly (result : Ty) (ss : List Stmt) : Prop where
  ends : result ≠ .void → Stmt.endsAll false ss = true
  fits : ∀ t ∈ Stmt.liveAll false ss, t.Fits result ss
  distinct : (labelsIn (Stmt.notesAll ss)).Nodup

namespace Orderly

variable {result : Ty} {oracle : Nat → Bool} {s' : TaskState} {acts : List Action}

theorem end_cases (h : Orderly result ss) :
    Stmt.endsAll false ss = true ∨ Safe (Stmt.Fits result ss) result [] := by
  by_cases hVoid : result = .void
  · exact Or.inr hVoid
  · exact Or.inl (h.ends hVoid)

/-- The first step of a statement keeps what remains safe unless it is a jump to a stray label. -/
theorem begin_safe (h : Orderly result ss) {t : Stmt}
    (hSafe : Safe (Stmt.Fits result ss) result (.stmt t :: k))
    (hStep : t.begin result ss oracle k n = (acts, some s')) :
    Safe (Stmt.Fits result ss) result s'.tasks ∨
      ∃ p name sym, t = .jump p name (some sym) ∧ sym ∈ Stmt.strayLabels ss := by
  obtain ⟨hLive, hEnd⟩ := hSafe
  cases t with
  | block p scope ts =>
    cases hStep
    exact Or.inl (safe_stmts (fun t ht => hLive t (mem_cons_of_mem _ ht)) hEnd)
  | ifThen p x bs t es e =>
    cases hStep
    simp only [Stmt.live, mem_cons, mem_append, or_imp, forall_and] at hLive
    simp only [Stmt.ends, Bool.and_eq_true] at hEnd
    refine Or.inl ?_
    cases oracle n with
    | true => exact ⟨hLive.2.1, hEnd.imp_left And.left⟩
    | false => exact ⟨hLive.2.2, hEnd.imp_left And.right⟩
  | «while» p x bs b =>
    cases hStep
    exact Or.inl ⟨fun t ht => hLive t (mem_cons_of_mem _ ht),
      hEnd.resolve_left (by simp [Stmt.ends])⟩
  | doWhile p bs b x =>
    cases hStep
    have hBody : ∀ t ∈ b.live, t.Fits result ss := fun t ht => hLive t (mem_cons_of_mem _ ht)
    exact Or.inl ⟨hBody, hEnd.imp_right fun hRest => ⟨hBody, hRest⟩⟩
  | «for» p init x step bs b =>
    cases hStep
    have hRest : Safe (Stmt.Fits result ss) result (.loop x step b :: k) :=
      ⟨fun t ht => hLive t (mem_cons_of_mem _ ht), hEnd.resolve_left (by simp [Stmt.ends])⟩
    exact Or.inl (safe_evals hRest)
  | jump p name entry =>
    obtain ⟨sym, rfl, hSym⟩ := (hLive _ (List.mem_singleton.mpr rfl)).jumps
    rcases List.mem_append.mp hSym with hSym | hSym
    · simp only [Stmt.begin, Option.bind_some] at hStep
      cases hAfter : Stmt.afterAll? sym ss [] with
      | none =>
        rw [hAfter] at hStep
        cases hStep
      | some k' =>
        rw [hAfter] at hStep
        cases hStep
        exact Or.inl (Stmt.afterAll?_safe (fun s _ => s.after?_safe) hSym h.distinct h.fits
          h.end_cases hAfter)
    · exact Or.inr ⟨p, name, sym, rfl, hSym⟩
  | ret p x => cases hStep
  | goto p name entry => cases hStep
  | _ =>
    cases hStep
    exact Or.inl (hEnd.resolve_left (by simp [Stmt.ends]))

/-- A step keeps what remains safe unless it is a jump to a stray label. -/
theorem step_safe (h : Orderly result ss) (hSafe : Safe (Stmt.Fits result ss) result s.tasks)
    (hStep : (taskMachine result ss oracle).step s = (acts, some s')) :
    Safe (Stmt.Fits result ss) result s'.tasks ∨ ∃ sym ∈ Stmt.strayLabels ss, s.Jumps sym := by
  obtain ⟨tasks, n⟩ := s
  match tasks with
  | [] => cases hStep
  | .stmt t :: k =>
    rcases h.begin_safe hSafe hStep with hNext | ⟨p, name, sym, rfl, hSym⟩
    · exact Or.inl hNext
    · exact Or.inr ⟨sym, hSym, p, name, k, rfl⟩
  | .eval x :: k =>
    cases hStep
    exact Or.inl hSafe
  | .loop x step b :: k =>
    have hRound : Safe (Stmt.Fits result ss) result
        (.stmt b :: (step.map .eval ++ .loop x step b :: k)) :=
      ⟨hSafe.1, Or.inr (safe_evals hSafe)⟩
    simp only [taskMachine, taskStep] at hStep
    split at hStep
    · cases hStep
      exact Or.inl hRound
    · cases hStep
      cases oracle n with
      | true => exact Or.inl hRound
      | false => exact Or.inl hSafe.2
  | .again b x :: k =>
    cases hStep
    cases oracle n with
    | true => exact Or.inl ⟨hSafe.1, Or.inr hSafe⟩
    | false => exact Or.inl hSafe.2

/-- A run keeps what remains safe until it comes to a jump to a stray label. -/
theorem run_safe (h : Orderly result ss) (hSafe : Safe (Stmt.Fits result ss) result s.tasks)
    (hRun : ((taskMachine result ss oracle).run n s).2 = some s') :
    Safe (Stmt.Fits result ss) result s'.tasks ∨
      ∃ m < n, ∃ s'' sym, ((taskMachine result ss oracle).run m s).2 = some s'' ∧ s''.Jumps sym ∧
        sym ∈ Stmt.strayLabels ss := by
  induction n generalizing s with
  | zero =>
    cases hRun
    exact Or.inl hSafe
  | succ n ih =>
    rcases hStep : (taskMachine result ss oracle).step s with ⟨es, next⟩
    cases next with
    | none =>
      rw [Machine.run_halt hStep] at hRun
      cases hRun
    | some t =>
      rw [Machine.run_next hStep] at hRun
      rcases h.step_safe hSafe hStep with hNext | ⟨sym, hSym, hJumps⟩
      · rcases ih hNext hRun with hEnd | ⟨m, hm, s'', sym, hThere, hJumps⟩
        · exact Or.inl hEnd
        · refine Or.inr ⟨m + 1, by omega, s'', sym, ?_, hJumps⟩
          rw [Machine.run_next hStep]
          exact hThere
      · exact Or.inr ⟨0, by omega, s, sym, rfl, hJumps, hSym⟩

theorem not_misleaves (hSafe : Safe (Stmt.Fits result ss) result s.tasks) :
    ¬ s.Misleaves result := by
  obtain ⟨tasks, n⟩ := s
  intro hLeaves
  match tasks with
  | [] => exact hLeaves hSafe
  | .stmt t :: k => exact hLeaves (hSafe.1 t t.mem_live_self).agrees

/-- Control leaves an orderly body in the right way, unless it has come to a jump to a stray label. -/
theorem strays (h : Orderly result ss) (hArrives : Arrives result ss oracle n s)
    (hLeaves : s.Misleaves result) :
    ∃ m < n, ∃ s' sym, Arrives result ss oracle m s' ∧ s'.Jumps sym ∧ sym ∈ Stmt.strayLabels ss :=
      by
  have hStart := safe_stmts h.fits h.end_cases
  rw [append_nil] at hStart
  exact (h.run_safe hStart hArrives).resolve_left fun hSafe => not_misleaves hSafe hLeaves

end Orderly
end Lsl
