import Lsl.Proofs.Flow
import Lsl.Proofs.Programs
import Mathlib.Data.List.Nodup

/-! Emission preserves control flow. A list of tasks is related to the code ahead that continues with
them; each step of the structured body is then matched by steps of the code, and the code of each
action runs from its first instruction to its last. -/
namespace Lsl

open List

variable {l l' : Labels} {name : String} {entry : Option Symbol} {later other c d : List Instr} {x : Expr}
  {b : Stmt} {k k' : List Task} {n : Nat} {e : Surroundings}

variable {ts : List Stmt} {step : List Expr} {top done : Label} {test body : List Instr} {sym : Symbol}
  {Top : Symbol → Prop} {r : Routine}

/-- Code of a statement in the body `ss`, made while the labels `last` were given out. -/
structure Coded (e : Surroundings) (last : Labels) (ss : List Stmt) (s : Stmt) (c : List Instr) :
    Prop where
  ready : Stmt.Ready e.result s
  bound : ∀ sym, .uses .label (some sym) ∈ s.notes → sym ∈ labelsIn (Stmt.notesAll ss)
  code : ∃ l l', l.Valid ∧ s.code e l = .ok (c, l') ∧ l'.Grows last

/-- Code of statements one after the other. -/
inductive CodedAll (e : Surroundings) (last : Labels) (ss : List Stmt) :
    List Stmt → List Instr → Prop where
  | nil : CodedAll e last ss [] []
  | cons {s : Stmt} {ts : List Stmt} {c d : List Instr} (head : Coded e last ss s c)
      (tail : CodedAll e last ss ts d) : CodedAll e last ss (s :: ts) (c ++ d)

namespace Coded

variable {last : Labels} {ss : List Stmt} {p : Pos} {bs : Option Scope}

theorem all (hReady : ∀ s ∈ ts, Stmt.Ready e.result s)
    (hBound : ∀ sym, .uses .label (some sym) ∈ Stmt.notesAll ts → sym ∈ labelsIn (Stmt.notesAll ss))
    (hl : l.Valid) (h : Stmt.codeAll e ts l = .ok (d, l')) (hGrows : l'.Grows last) :
    CodedAll e last ss ts d := by
  induction ts generalizing l d with
  | nil =>
    obtain ⟨rfl, _⟩ := Stmt.codeAll_nil.mp h
    exact .nil
  | cons s ts ih =>
    obtain ⟨first, rest, l₁, hFirst, hRest, rfl⟩ := Stmt.codeAll_cons.mp h
    simp only [Stmt.notesAll, mem_append] at hBound
    have hHead := s.code_numbers _ _ _ hl hFirst
    have hTail := Stmt.codeAll_numbers hHead.valid hRest
    refine .cons ⟨hReady s (by simp), fun sym hs => hBound sym (Or.inl hs), l, l₁, hl, hFirst,
      hTail.grows.trans hGrows⟩ ?_
    exact ih (fun t ht => hReady t (by simp [ht])) (fun sym hs => hBound sym (Or.inr hs))
      hHead.valid hRest

theorem block {scope : Option Scope} (h : Coded e last ss (.block p scope ts) d) :
    CodedAll e last ss ts d := by
  obtain ⟨hReady, hBound, l, l', hl, hCode, hGrows⟩ := h
  exact all hReady.block hBound hl (Stmt.code_block.mp hCode) hGrows

theorem expr (h : Coded e last ss (.expr p x) d) : x.discard e = .ok d := by
  obtain ⟨_, _, l, l', _, hCode, _⟩ := h
  exact (Stmt.code_expr.mp hCode).1

/-- A test that fails skips the first branch, which skips the second. -/
theorem ifThen {ts es : Option Scope} {t f : Stmt}
    (h : Coded e last ss (.ifThen p x ts t es f) d) : ∃ cx skip first,
      x.code e = .ok cx ∧ Coded e last ss t first ∧
      ((Coded e last ss f [] ∧ d = cx ++ .jumpNot x.ty skip :: (first ++ [Instr.label skip])) ∨
      ∃ done second, Coded e last ss f second ∧ d = cx ++ .jumpNot x.ty skip ::
        (first ++ .jump done :: .label skip :: (second ++ [Instr.label done]))) := by
  obtain ⟨hReady, hBound, l, l', hl, hCode, hGrows⟩ := h
  obtain ⟨px, _, hx, ht, hf⟩ := hReady.ifThen
  simp only [Stmt.notes, mem_append] at hBound
  obtain ⟨cx, hcx⟩ := x.code_succeeds e hx
  have hSkip := Labels.next_valid hl
  obtain rfl | hElse := f.missing_or_present
  · obtain ⟨test, first, hTest, hFirst, rfl⟩ := Stmt.code_ifThen_missing.mp hCode
    cases (Stmt.branchNot_eq px hcx _).symm.trans hTest
    have hThen := t.code_numbers _ _ _ hSkip hFirst
    refine ⟨cx, l.last + 1, first, hcx, ⟨ht, fun sym hs => hBound sym (Or.inl (Or.inr hs)), _, _,
      hSkip, hFirst, hGrows⟩, Or.inl ⟨⟨hf, fun sym hs => hBound sym (Or.inr hs), l', l',
      hThen.valid, Stmt.code_missing.mpr ⟨rfl, rfl⟩, hGrows⟩, ?_⟩⟩
    simp
  · obtain ⟨test, first, second, l₁, hTest, hFirst, hSecond, rfl⟩ :=
      (Stmt.code_ifThen hElse).mp hCode
    cases (Stmt.branchNot_eq px hcx _).symm.trans hTest
    have hValid := Labels.next_valid (t.code_numbers _ _ _ hSkip hFirst).valid
    have hLater := (l₁.next_grows.trans (f.code_numbers _ _ _ hValid hSecond).grows).trans hGrows
    refine ⟨cx, l.last + 1, first, hcx, ⟨ht, fun sym hs => hBound sym (Or.inl (Or.inr hs)), _, _,
      hSkip, hFirst, hLater⟩, Or.inr
        ⟨l₁.last + 1, second, ⟨hf, fun sym hs => hBound sym (Or.inr hs), _, _, hValid,
      hSecond, hGrows⟩, ?_⟩⟩
    simp

/-- A loop that tests first is code that jumps back to the test. -/
theorem whileLoop (h : Coded e last ss (.while p x bs b) d) : ∃ top done test body,
    Stmt.loopTest e x done = .ok test ∧ Coded e last ss b body ∧
      d = .label top :: (test ++ (body ++ Instr.jump top :: [.label done])) := by
  obtain ⟨hReady, hBound, l, l', hl, hCode, hGrows⟩ := h
  obtain ⟨px, _, hx, hb⟩ := hReady.whileLoop
  simp only [Stmt.notes, mem_append] at hBound
  obtain ⟨test, body, hTest, hBody, rfl⟩ := Stmt.code_while.mp hCode
  refine ⟨l.last + 1, l.next.last + 1, test, body, (Stmt.loopTest_eq px _).trans hTest,
    ⟨hb, fun sym hs => hBound sym
    (Or.inr hs), _, _, Labels.next_valid (Labels.next_valid hl), hBody, hGrows⟩, ?_⟩
  simp

theorem doWhile (h : Coded e last ss (.doWhile p bs b x) d) : ∃ top body test,
    x.code e = .ok test ∧ Coded e last ss b body ∧
      d = .label top :: (body ++ (test ++ [Instr.jumpIf x.ty top])) := by
  obtain ⟨hReady, hBound, l, l', hl, hCode, hGrows⟩ := h
  obtain ⟨px, _, hx, hb⟩ := hReady.doWhile
  simp only [Stmt.notes, mem_append] at hBound
  obtain ⟨body, test, hBody, hTest, rfl⟩ := (Stmt.code_doWhile px).mp hCode
  refine ⟨l.last + 1, body, test, hTest, ⟨hb, fun sym hs => hBound sym (Or.inl hs), _, _,
    Labels.next_valid hl, hBody, hGrows⟩, ?_⟩
  simp

theorem forLoop {init : List Expr} (h : Coded e last ss (.for p init x step bs b) d) :
    ∃ top done first test body later, Expr.discardAll e init = .ok first ∧
      Stmt.loopTest e x done = .ok test ∧ Coded e last ss b body ∧
      Expr.discardAll e step = .ok later ∧
      d = first ++ .label top :: (test ++ (body ++ (later ++ Instr.jump top :: [.label done]))) := by
  obtain ⟨hReady, hBound, l, l', hl, hCode, hGrows⟩ := h
  obtain ⟨_, _, _, _, hb⟩ := hReady.forLoop
  simp only [Stmt.notes, mem_append] at hBound
  obtain ⟨first, test, body, later, hFirst, hTest, hBody, hLater, rfl⟩ := Stmt.code_for.mp hCode
  refine ⟨l.last + 1, l.next.last + 1, first, test, body, later, hFirst, hTest,
    ⟨hb, fun sym hs => hBound sym (Or.inr hs), _, _, Labels.next_valid (Labels.next_valid hl), hBody,
      hGrows⟩,
    hLater, ?_⟩
  simp

theorem jump (h : Coded e last ss (.jump p name entry) d) :
    ∃ sym n, entry = some sym ∧ sym ∈ labelsIn (Stmt.notesAll ss) ∧
      last.known.lookup sym.key = some n ∧ d = [.jump n] := by
  obtain ⟨_, hBound, l, l', hl, hCode, hGrows⟩ := h
  obtain ⟨sym, rfl, rfl, rfl⟩ := Stmt.code_jump.mp hCode
  exact ⟨sym, _, rfl, hBound sym (by simp [Stmt.notes]), hGrows.kept _ _ (l.lookup_asked sym), rfl⟩

theorem label (h : Coded e last ss (.label p name entry) d) :
    ∃ sym n, entry = some sym ∧ last.known.lookup sym.key = some n ∧ d = [.label n] := by
  obtain ⟨_, _, l, l', hl, hCode, hGrows⟩ := h
  obtain ⟨sym, rfl, rfl, rfl⟩ := Stmt.code_label.mp hCode
  exact ⟨sym, _, rfl, hGrows.kept _ _ (l.lookup_asked sym), rfl⟩

end Coded

theorem suffix_of_append {a b : List Instr} (h : a ++ b <:+ c) : b <:+ c :=
  (suffix_append a b).trans h

/-- Code ahead in a body that ends in a return: there is always a next instruction. -/
structure Live (code c : List Instr) : Prop where
  suffix : c <:+ code
  ne_nil : c ≠ []

namespace Live

variable {code : List Instr} {i : Instr}

theorem tail (hEnds : code.getLast? = some .ret) (h : Live code (i :: c)) (hi : i ≠ .ret) :
    Live code c := by
  refine ⟨(suffix_cons i c).trans h.suffix, ?_⟩
  rintro rfl
  obtain ⟨pre, rfl⟩ := h.suffix
  rw [List.getLast?_append] at hEnds
  exact hi (by simpa using hEnds)

/-- Straight code does not run over the end. -/
theorem straight (hEnds : code.getLast? = some .ret) (hd : Straight d) (h : Live code (d ++ c)) :
    Live code c := by
  induction d with
  | nil => exact h
  | cons i d ih =>
    refine ih (fun j hj => hd j (by simp [hj])) (h.tail hEnds ?_)
    rintro rfl
    cases hd .ret (by simp)

theorem target (hDistinct : (labelsOf code).Nodup) {n : Label} (h : .label n :: c <:+ code) :
    Live code (target n code) := by
  rw [target_eq hDistinct h]
  exact ⟨h, by simp⟩

end Live

/-- Code ahead that goes on with the tasks. Labels and jumps on the way do not count. -/
inductive Continues (e : Surroundings) (last : Labels) (ss : List Stmt) (code : List Instr) :
    List Task → List Instr → Prop where
  | done {c : List Instr} (h : c = e.exit ∨ c = []) : Continues e last ss code [] c
  | pass {k : List Task} {n : Label} {c : List Instr} (rest : Continues e last ss code k c) :
      Continues e last ss code k (.label n :: c)
  | enter {k : List Task} {n : Int} {c : List Instr} (rest : Continues e last ss code k c) :
      Continues e last ss code k (.enterFrame n :: c)
  | jump {k : List Task} {n : Label} {c : List Instr} (hLive : Live code (target n code))
      (rest : Continues e last ss code k (target n code)) :
      Continues e last ss code k (.jump n :: c)
  | eval {x : Expr} {k : List Task} {d c : List Instr} (hx : x.discard e = .ok d)
      (rest : Continues e last ss code k c) : Continues e last ss code (.eval x :: k) (d ++ c)
  | stmt {s : Stmt} {k : List Task} {d c : List Instr} (hs : Coded e last ss s d)
      (rest : Continues e last ss code k c) : Continues e last ss code (.stmt s :: k) (d ++ c)
  | loop {x : Expr} {step : List Expr} {b : Stmt} {k : List Task} {top done : Label}
      {test body later c : List Instr} (hTest : Stmt.loopTest e x done = .ok test)
      (hBody : Coded e last ss b body) (hStep : Expr.discardAll e step = .ok later)
      (rest : Continues e last ss code k c) :
      Continues e last ss code (.loop x step b :: k)
        (.label top :: (test ++ (body ++ (later ++ .jump top :: .label done :: c))))
  | again {b : Stmt} {x : Expr} {k : List Task} {top : Label} {body test c : List Instr}
      (hTest : x.code e = .ok test) (hBody : Coded e last ss b body)
      (hTop : target top code = .label top :: (body ++ (test ++ .jumpIf x.ty top :: c)))
      (rest : Continues e last ss code k c) :
      Continues e last ss code (.again b x :: k) (test ++ .jumpIf x.ty top :: c)

namespace Continues

variable {last : Labels} {ss : List Stmt} {code : List Instr}

theorem evals {es : List Expr} (h : Expr.discardAll e es = .ok d)
    (rest : Continues e last ss code k c) :
    Continues e last ss code (es.map .eval ++ k) (d ++ c) := by
  induction es generalizing d with
  | nil =>
    cases h
    exact rest
  | cons x es ih =>
    simp only [Expr.discardAll, bind_eq_ok, pure_eq_ok] at h
    obtain ⟨first, hFirst, others, hOthers, rfl⟩ := h
    rw [append_assoc]
    exact .eval hFirst (ih hOthers)

/-- The code of statements goes on where their tasks do. -/
theorem stmts (h : CodedAll e last ss ts d) (rest : Continues e last ss code k c) :
    Continues e last ss code (ts.map .stmt ++ k) (d ++ c) := by
  induction h with
  | nil => exact rest
  | cons head tail ih =>
    rw [append_assoc]
    exact .stmt head ih

/-- After the body of a loop come its last expressions and the next round. -/
theorem round (hDistinct : (labelsOf code).Nodup) (hTest : Stmt.loopTest e x done = .ok test)
    (hBody : Coded e last ss b body) (hStep : Expr.discardAll e step = .ok later)
    (rest : Continues e last ss code k c)
    (hSuffix : .label top :: (test ++ (body ++ (later ++ Instr.jump top :: .label done :: c))) <:+ code) :
    Continues e last ss code (step.map .eval ++ .loop x step b :: k)
      (later ++ Instr.jump top :: .label done :: c) := by
  refine evals hStep (.jump (Live.target hDistinct hSuffix) ?_)
  rw [target_eq hDistinct hSuffix]
  exact .loop hTest hBody hStep rest

/-- The first alternative of a test goes on after the second one. -/
theorem skip (hDistinct : (labelsOf code).Nodup) (rest : Continues e last ss code k c)
    (hSuffix : other ++ .label done :: c <:+ code) :
    Continues e last ss code k (.jump done :: (other ++ .label done :: c)) := by
  refine .jump (Live.target hDistinct (suffix_of_append hSuffix)) ?_
  rw [target_eq hDistinct (suffix_of_append hSuffix)]
  exact .pass rest

end Continues

namespace Stmt

variable {last : Labels} {ss : List Stmt} {code : List Instr}

/-- What remains after a label is what the code from that label goes on with. -/
def Reaches (e : Surroundings) (last : Labels) (ss : List Stmt) (code : List Instr) (sym : Symbol)
    (k : List Task) : Prop :=
  ∃ n c, last.known.lookup sym.key = some n ∧ .label n :: c <:+ code ∧ Continues e last ss code k c

theorem afterAll?_reaches
    (ih : ∀ s ∈ ts, ∀ d c k k', Coded e last ss s d → Continues e last ss code k c →
      d ++ c <:+ code → s.after? sym k = some k' → Reaches e last ss code sym k')
    (h : CodedAll e last ss ts d) (rest : Continues e last ss code k c) (hSuffix : d ++ c <:+ code)
    (hAfter : afterAll? sym ts k = some k') : Reaches e last ss code sym k' := by
  induction h with
  | nil => cases hAfter
  | cons head tail ihList =>
    rw [append_assoc] at hSuffix
    rcases Option.or_eq_some_iff.mp hAfter with hFirst | ⟨_, hRest⟩
    · exact ih _ (by simp) _ _ _ _ head (rest.stmts tail) hSuffix hFirst
    · exact ihList (fun s hs => ih s (by simp [hs])) (suffix_of_append hSuffix) hRest

/-- A label in a statement is reached with what remains after it. The cases follow the places where a
label can stand, each with the code that comes after the statement there. -/
theorem after?_reaches (hDistinct : (labelsOf code).Nodup) (s : Stmt) (d c : List Instr) (k k' : List Task)
    (h : Coded e last ss s d) (rest : Continues e last ss code k c) (hSuffix : d ++ c <:+ code)
    (hAfter : s.after? sym k = some k') : Reaches e last ss code sym k' := by
  induction s generalizing d c k k' with
  | block p scope ts ih =>
    exact afterAll?_reaches ih h.block rest hSuffix hAfter
  | label p name entry =>
    obtain ⟨s, n, rfl, hKnown, rfl⟩ := h.label
    obtain ⟨hSame, hk⟩ := Option.ite_none_right_eq_some.mp hAfter
    cases hSame
    cases hk
    exact ⟨n, c, hKnown, hSuffix, rest⟩
  | ifThen p x ts t es f iht ihf =>
    obtain ⟨cx, skip, first, _, ht, ⟨hf, rfl⟩ | ⟨done, second, hf, rfl⟩⟩ := h.ifThen
    · simp only [append_assoc, cons_append, nil_append] at hSuffix
      have hThen := (suffix_cons _ _).trans (suffix_of_append hSuffix)
      rcases Option.or_eq_some_iff.mp hAfter with hFirst | ⟨_, hSecond⟩
      · exact iht _ _ _ _ ht (.pass rest) hThen hFirst
      · exact ihf _ _ _ _ hf rest ((suffix_cons _ _).trans (suffix_of_append hThen)) hSecond
    · simp only [append_assoc, cons_append, nil_append] at hSuffix
      have hThen := (suffix_cons _ _).trans (suffix_of_append hSuffix)
      have hElse := (suffix_cons _ _).trans
        ((suffix_cons _ _).trans (suffix_of_append hThen))
      rcases Option.or_eq_some_iff.mp hAfter with hFirst | ⟨_, hSecond⟩
      · refine iht _ _ _ _ ht ?_ hThen hFirst
        have hOther : (.label skip :: second) ++ .label done :: c <:+ code :=
          (suffix_cons _ _).trans (suffix_of_append hThen)
        exact Continues.skip hDistinct rest hOther
      · exact ihf _ _ _ _ hf (.pass rest) hElse hSecond
  | whileLoop p x bs b ih =>
    obtain ⟨top, done, test, body, hTest, hb, rfl⟩ := h.whileLoop
    simp only [append_assoc, cons_append, nil_append] at hSuffix
    have hBody := suffix_of_append ((suffix_cons _ _).trans hSuffix)
    have hRound : Continues e last ss code (([] : List Expr).map .eval ++ .loop x [] b :: k)
        ([] ++ .jump top :: .label done :: c) :=
      Continues.round hDistinct hTest hb rfl rest hSuffix
    exact ih _ _ _ _ hb hRound hBody hAfter
  | doWhile p bs b x ih =>
    obtain ⟨top, body, test, hTest, hb, rfl⟩ := h.doWhile
    simp only [append_assoc, cons_append, nil_append] at hSuffix
    exact ih _ _ _ _ hb (.again hTest hb (target_eq hDistinct hSuffix) rest)
      ((suffix_cons _ _).trans hSuffix) hAfter
  | forLoop p init x step bs b ih =>
    obtain ⟨top, done, first, test, body, later, _, hTest, hb, hStep, rfl⟩ := h.forLoop
    simp only [append_assoc, cons_append, nil_append] at hSuffix
    have hLoop := suffix_of_append hSuffix
    exact ih _ _ _ _ hb (Continues.round hDistinct hTest hb hStep rest hLoop)
      (suffix_of_append ((suffix_cons _ _).trans hLoop)) hAfter
  | _ =>
    cases hAfter

end Stmt

/-- Code of the body `ss` in which control can be followed. -/
structure Followable (e : Surroundings) (last : Labels) (ss : List Stmt) (code : List Instr) :
    Prop where
  distinct : (labelsOf code).Nodup
  ends : code.getLast? = some .ret
  labels : ∀ sym ∈ labelsIn (Stmt.notesAll ss), ∃ k, Stmt.afterAll? sym ss [] = some k ∧
    Stmt.Reaches e last ss code sym k

/-- A structured body under way and its code under way. -/
structure Related (e : Surroundings) (last : Labels) (ss : List Stmt) (code : List Instr)
    (s : TaskState) (t : CodeState) : Prop where
  tests : t.tests = s.tests
  continues : Continues e last ss code s.tasks t.ahead
  live : Live code t.ahead

mutual

/-- How often a statement can be taken up before an instruction runs. -/
def Stmt.rank : Stmt → Nat
  | .block _ _ ss => Stmt.rankAll ss + 1
  | .while .. => 2
  | .for _ init _ _ _ _ => init.length + 2
  | _ => 1

def Stmt.rankAll : List Stmt → Nat
  | [] => 0
  | s :: ss => s.rank + Stmt.rankAll ss

end

def Task.rank : Task → Nat
  | .stmt s => s.rank
  | _ => 1

def Task.rankAll : List Task → Nat
  | [] => 0
  | t :: k => t.rank + rankAll k

theorem Task.rankAll_append (k k' : List Task) : rankAll (k ++ k') = rankAll k + rankAll k' := by
  induction k with
  | nil => simp [rankAll]
  | cons t k ih =>
    simp only [cons_append, rankAll, ih]
    omega

theorem Task.rankAll_stmts (ss : List Stmt) : rankAll (ss.map .stmt) = Stmt.rankAll ss := by
  induction ss with
  | nil => rfl
  | cons s ss ih => simp only [map_cons, rankAll, Stmt.rankAll, ih, rank]

theorem Task.rankAll_evals (es : List Expr) : rankAll (es.map .eval) = es.length := by
  induction es with
  | nil => rfl
  | cons x es ih =>
    simp only [map_cons, rankAll, ih, rank, length_cons]
    omega

section steps

variable {last : Labels} {ss : List Stmt} {code : List Instr} {oracle : Nat → Bool}

/-- A step of a structured body is matched by steps of its code, and can be emitted. -/
structure Matches (e : Surroundings) (last : Labels) (ss : List Stmt) (code : List Instr)
    (oracle : Nat → Bool) (k : List Task) (c : List Instr) (n : Nat) : Prop where
  steps : ∃ m out, (codeMachine code oracle).run m ⟨c, n⟩ =
    ((taskStep e.result ss oracle ⟨k, n⟩).1.flatMap (Action.events e), out) ∧
    Option.Rel (fun s t => Related e last ss code s t ∧
      (0 < m ∨ Task.rankAll s.tasks < Task.rankAll k)) (taskStep e.result ss oracle ⟨k, n⟩).2 out
  performed : ∀ a ∈ (taskStep e.result ss oracle ⟨k, n⟩).1, .stuck ∉ a.events e

namespace Matches

variable {c' : List Instr} {n' m : Nat} {a : Action} {es : List Event}

/-- An instruction that nothing shows of may come before. -/
theorem unseen (hStep : codeStep code oracle ⟨c, n⟩ = ([], some ⟨c', n⟩))
    (h : Matches e last ss code oracle k c' n) : Matches e last ss code oracle k c n := by
  obtain ⟨⟨m, out, hRun, hOut⟩, hPerformed⟩ := h
  refine ⟨⟨m + 1, out, ?_, ?_⟩, hPerformed⟩
  · rw [Machine.run_next hStep, hRun]
    rfl
  · generalize (taskStep e.result ss oracle ⟨k, n⟩).2 = next at hOut
    cases hOut with
    | none => exact .none
    | some hNext => exact .some ⟨hNext.1, Or.inl (Nat.succ_pos m)⟩

/-- A task that shows nothing is matched by instructions that show nothing. -/
theorem goes (hTask : taskStep e.result ss oracle ⟨k, n⟩ = ([], some ⟨k', n⟩))
    (hRun : (codeMachine code oracle).run m ⟨c, n⟩ = ([], some ⟨c', n⟩))
    (hNext : Continues e last ss code k' c') (hLive : Live code c')
    (hRank : 0 < m ∨ Task.rankAll k' < Task.rankAll k) : Matches e last ss code oracle k c n := by
  refine ⟨⟨m, some ⟨c', n⟩, ?_, ?_⟩, ?_⟩ <;> rw [hTask]
  · exact hRun
  · exact .some ⟨⟨rfl, hNext, hLive⟩, hRank⟩
  · simp

/-- An action is matched by the instructions of its code. -/
theorem acts (hTask : taskStep e.result ss oracle ⟨k, n⟩ = ([a], some ⟨k', n'⟩))
    (hCode : a.code e = .ok es) (hSeen : .stuck ∉ es)
    (hRun : (codeMachine code oracle).run m ⟨c, n⟩ = (es, some ⟨c', n'⟩))
    (hNext : Continues e last ss code k' c') (hLive : Live code c')
    (hRank : 0 < m ∨ Task.rankAll k' < Task.rankAll k) : Matches e last ss code oracle k c n := by
  have hEvents : a.events e = es := by
    rw [Action.events, hCode]
  refine ⟨⟨m, some ⟨c', n'⟩, ?_, ?_⟩, ?_⟩ <;> rw [hTask]
  · rw [hRun, flatMap_singleton, hEvents]
  · exact .some ⟨⟨rfl, hNext, hLive⟩, hRank⟩
  · simpa [hEvents] using hSeen

/-- The end of a run is matched by a return. -/
theorem halts (hTask : taskStep e.result ss oracle ⟨k, n⟩ = ([a], none))
    (hCode : a.code e = .ok es) (hSeen : .stuck ∉ es)
    (hRun : (codeMachine code oracle).run m ⟨c, n⟩ = (es, none)) :
    Matches e last ss code oracle k c n := by
  have hEvents : a.events e = es := by
    rw [Action.events, hCode]
  refine ⟨⟨m, none, ?_, ?_⟩, ?_⟩ <;> rw [hTask]
  · rw [hRun, flatMap_singleton, hEvents]
  · exact .none
  · simpa [hEvents] using hSeen

end Matches

/-- A test that passes over the code up to a label when it fails. -/
theorem Followable.tests {yes no : List Task} {cx : List Instr} {skip : Label}
    (hCode : Followable e last ss code) (hx : x.code e = .ok cx)
    (hTask : taskStep e.result ss oracle ⟨k, n⟩ =
      ([.test x (oracle n)], some ⟨if oracle n then yes else no, n + 1⟩))
    (hYes : Continues e last ss code yes c) (hNo : Continues e last ss code no other)
    (hSkip : .label skip :: other <:+ code) (hLive : Live code (cx ++ .jumpNot x.ty skip :: c)) :
    Matches e last ss code oracle k (cx ++ .jumpNot x.ty skip :: c) n := by
  have hStraight := Expr.code_straight x cx hx
  have hAct : (Action.test x (oracle n)).code e =
      .ok (cx.map .instr ++ [Event.test x.ty (oracle n)]) := by
    simp only [Action.code, hx, ok_bind, pure_ok]
  refine Matches.acts hTask hAct (by simp) (Machine.run_testNot hStraight _ _ _ n) ?_ ?_
    (Or.inl (Nat.succ_pos _))
  · cases oracle n with
    | true => exact hYes
    | false =>
      rw [if_neg Bool.false_ne_true, if_neg Bool.false_ne_true, target_eq hCode.distinct hSkip]
      exact .pass hNo
  · cases oracle n with
    | true => exact (hLive.straight hCode.ends hStraight).tail hCode.ends (by simp)
    | false => exact Live.target hCode.distinct hSkip

theorem Continues.done_matches (h : c = e.exit ∨ c = []) (hLive : Live code c) (n : Nat) :
    Matches e last ss code oracle [] c n := by
  rcases h with rfl | rfl
  · exact Matches.halts rfl rfl (by simp) (Machine.run_exit e Straight.nil [] n)
  · exact absurd rfl hLive.ne_nil

theorem Continues.loop_matches (hCode : Followable e last ss code)
    (hTest : Stmt.loopTest e x done = .ok test) (hBody : Coded e last ss b body)
    (hStep : Expr.discardAll e step = .ok later) (rest : Continues e last ss code k c)
    (hLive : Live code (.label top :: (test ++ (body ++ (later ++ .jump top :: .label done :: c)))))
    (n : Nat) :
    Matches e last ss code oracle (.loop x step b :: k)
      (.label top :: (test ++ (body ++ (later ++ .jump top :: .label done :: c)))) n := by
  have hRound := Continues.round hCode.distinct hTest hBody hStep rest hLive.suffix
  have hNext := Continues.stmt hBody hRound
  have hAhead := hLive.tail hCode.ends (by simp)
  cases hPresent : x.isMissing with
  | true =>
    simp only [Stmt.loopTest, hPresent, if_true] at hTest
    cases hTest
    refine Matches.goes ?_ (Machine.run_one rfl) hNext hAhead (Or.inl Nat.one_pos)
    simp only [taskStep, hPresent, if_true]
  | false =>
    rw [Stmt.loopTest_eq hPresent] at hTest
    simp only [Stmt.branchNot, Expr.typeOf_eq hPresent, ok_bind, bind_eq_ok, pure_eq_ok] at hTest
    obtain ⟨cx, hx, rfl⟩ := hTest
    simp only [append_assoc, cons_append, nil_append] at hAhead ⊢
    have hTask : taskStep e.result ss oracle ⟨.loop x step b :: k, n⟩ = ([.test x (oracle n)],
        some ⟨if oracle n then .stmt b :: (step.map .eval ++ .loop x step b :: k) else k,
          n + 1⟩) := by
      simp only [taskStep, hPresent, Bool.false_eq_true, if_false]
    have hDone : .label done :: c <:+ code := by
      have hSuffix := suffix_of_append (suffix_of_append ((suffix_cons _ _).trans
        (suffix_of_append hAhead.suffix)))
      exact (suffix_cons _ _).trans hSuffix
    exact Matches.unseen rfl (hCode.tests hx hTask hNext rest hDone hAhead)

theorem Continues.again_matches (hCode : Followable e last ss code) (hTest : x.code e = .ok test)
    (hBody : Coded e last ss b body)
    (hTop : target top code = .label top :: (body ++ (test ++ .jumpIf x.ty top :: c)))
    (rest : Continues e last ss code k c) (hLive : Live code (test ++ .jumpIf x.ty top :: c)) (n : Nat) :
    Matches e last ss code oracle (.again b x :: k) (test ++ .jumpIf x.ty top :: c) n := by
  have hStraight := Expr.code_straight x test hTest
  have hAct : (Action.test x (oracle n)).code e =
      .ok (test.map .instr ++ [Event.test x.ty (oracle n)]) := by
    simp only [Action.code, hTest, ok_bind, pure_ok]
  refine Matches.acts rfl hAct (by simp) (Machine.run_testIf hStraight _ _ _ n) ?_ ?_
    (Or.inl (Nat.succ_pos _))
  · cases oracle n with
    | true =>
      rw [if_pos rfl, if_pos rfl, hTop]
      exact .pass (.stmt hBody (.again hTest hBody hTop rest))
    | false => exact rest
  · cases oracle n with
    | true => exact ⟨dropWhile_suffix _, by simp [hTop]⟩
    | false => exact (hLive.straight hCode.ends hStraight).tail hCode.ends (by simp)

/-- The first step of a statement is matched by its code. -/
theorem Continues.stmt_matches {s : Stmt} (hCode : Followable e last ss code) (hs : Coded e last ss s d)
    (rest : Continues e last ss code k c) (hLive : Live code (d ++ c)) (n : Nat) :
    Matches e last ss code oracle (.stmt s :: k) (d ++ c) n := by
  cases s with
  | missing =>
    obtain ⟨_, _, l, l', _, hEmit, _⟩ := hs
    obtain ⟨rfl, _⟩ := Stmt.code_missing.mp hEmit
    exact Matches.goes (m := 0) rfl rfl rest hLive (Or.inr (by simp [Task.rankAll, Task.rank, Stmt.rank]))
  | empty p =>
    obtain ⟨_, _, l, l', _, hEmit, _⟩ := hs
    obtain ⟨rfl, _⟩ := Stmt.code_empty.mp hEmit
    exact Matches.goes (m := 0) rfl rfl rest hLive (Or.inr (by simp [Task.rankAll, Task.rank, Stmt.rank]))
  | block p scope ts =>
    refine Matches.goes (m := 0) rfl rfl (rest.stmts hs.block) hLive (Or.inr ?_)
    rw [Task.rankAll_append, Task.rankAll_stmts]
    simp only [Task.rankAll, Task.rank, Stmt.rank]
    omega
  | expr p x =>
    have hx := hs.expr
    have hStraight := Expr.discard_straight x d hx
    have hAct : (Action.eval x).code e = .ok (d.map .instr) := by
      simp only [Action.code, hx, ok_bind, pure_ok]
    exact Matches.acts rfl hAct (by simp) (Machine.run_straight hStraight c n) rest
      (hLive.straight hCode.ends hStraight) (Or.inr (by simp [Task.rankAll, Task.rank, Stmt.rank]))
  | decl p name ty x entry =>
    obtain ⟨_, _, l, l', _, hEmit, _⟩ := hs
    obtain ⟨sym, first, rfl, hFirst, rfl, _⟩ := Stmt.code_decl.mp hEmit
    have hStraight := (Stmt.initCode_straight hFirst).append
      (Straight.single (i := .store false ty (e.offset sym) "" false) rfl)
    have hAct : (Action.declare ty x (some sym)).code e =
        .ok ((first ++ [Instr.store false ty (e.offset sym) "" false]).map .instr) := by
      simp only [Action.code, Fault.need, hFirst, ok_bind, pure_ok]
    exact Matches.acts rfl hAct (by simp) (Machine.run_straight hStraight c n) rest
      (hLive.straight hCode.ends hStraight) (Or.inr (by simp [Task.rankAll, Task.rank, Stmt.rank]))
  | ifThen p x ts t es f =>
    obtain ⟨cx, skip, first, hx, ht, hForm⟩ := hs.ifThen
    have hTask : taskStep e.result ss oracle ⟨.stmt (.ifThen p x ts t es f) :: k, n⟩ =
        ([.test x (oracle n)], some ⟨if oracle n then .stmt t :: k else .stmt f :: k, n + 1⟩) := by
      cases hTest : oracle n <;> simp [taskStep, Stmt.begin, hTest]
    rcases hForm with ⟨hf, rfl⟩ | ⟨done, second, hf, rfl⟩ <;>
      simp only [append_assoc, cons_append, nil_append] at hLive ⊢ <;>
      have hThen := (suffix_cons _ _).trans (suffix_of_append hLive.suffix)
    · have hSkip := suffix_of_append hThen
      exact hCode.tests hx hTask (.stmt ht (.pass rest)) (.stmt hf rest) hSkip hLive
    · have hSkip := (suffix_cons _ _).trans (suffix_of_append hThen)
      have hOther : (.label skip :: second) ++ .label done :: c <:+ code := hSkip
      exact hCode.tests hx hTask (.stmt ht (.skip hCode.distinct rest hOther))
        (.stmt hf (.pass rest)) hSkip hLive
  | «while» p x bs b =>
    obtain ⟨top, done, test, body, hTest, hb, rfl⟩ := hs.whileLoop
    simp only [append_assoc, cons_append, nil_append] at hLive ⊢
    have hLoop : Continues e last ss code (.loop x [] b :: k)
        (.label top :: (test ++ (body ++ ([] ++ .jump top :: .label done :: c)))) :=
      .loop hTest hb rfl rest
    exact Matches.goes (m := 0) rfl rfl hLoop hLive
      (Or.inr (by simp [Task.rankAll, Task.rank, Stmt.rank]))
  | doWhile p bs b x =>
    obtain ⟨top, body, test, hTest, hb, rfl⟩ := hs.doWhile
    simp only [append_assoc, cons_append, nil_append] at hLive ⊢
    have hTop := target_eq hCode.distinct hLive.suffix
    exact Matches.goes rfl (Machine.run_one rfl) (.stmt hb (.again hTest hb hTop rest))
      (hLive.tail hCode.ends (by simp)) (Or.inl Nat.one_pos)
  | «for» p init x step bs b =>
    obtain ⟨top, done, first, test, body, later, hFirst, hTest, hb, hStep, rfl⟩ := hs.forLoop
    simp only [append_assoc, cons_append, nil_append] at hLive ⊢
    refine Matches.goes (m := 0) rfl rfl
      (Continues.evals hFirst (.loop hTest hb hStep rest)) hLive (Or.inr ?_)
    rw [Task.rankAll_append, Task.rankAll_evals]
    simp only [Task.rankAll, Task.rank, Stmt.rank]
    omega
  | jump p name entry =>
    obtain ⟨sym, m, rfl, hMem, hKnown, rfl⟩ := hs.jump
    obtain ⟨k', hAfter, m', c', hKnown', hSuffix, hNext⟩ := hCode.labels sym hMem
    cases hKnown.symm.trans hKnown'
    have hTask : taskStep e.result ss oracle ⟨.stmt (.jump p name (some sym)) :: k, n⟩ =
        ([], some ⟨k', n⟩) := by
      simp only [taskStep, Stmt.begin, Option.bind_some, hAfter]
    refine Matches.goes hTask (Machine.run_one rfl) ?_ (Live.target hCode.distinct hSuffix)
      (Or.inl Nat.one_pos)
    rw [target_eq hCode.distinct hSuffix]
    exact .pass hNext
  | label p name entry =>
    obtain ⟨sym, m, _, _, rfl⟩ := hs.label
    exact Matches.goes rfl (Machine.run_one rfl) rest (hLive.tail hCode.ends (by simp))
      (Or.inl Nat.one_pos)
  | ret p x =>
    obtain ⟨hReady, _, l, l', _, hEmit, _⟩ := hs
    obtain ⟨value, hValue, rfl, _⟩ := Stmt.code_ret.mp hEmit
    by_cases hNone : x.isMissing = true ∨ e.result = .void
    · cases (Stmt.resultCode_nil hNone).symm.trans hValue
      have hTask : taskStep e.result ss oracle ⟨.stmt (.ret p x) :: k, n⟩ =
          ([.ret none], none) := by
        simp only [taskStep, Stmt.begin, Bool.or_eq_true, decide_eq_true_eq, hNone, if_true]
      exact Matches.halts hTask rfl (by simp) (Machine.run_exit e Straight.nil c n)
    · have hTask : taskStep e.result ss oracle ⟨.stmt (.ret p x) :: k, n⟩ =
          ([.ret (some x)], none) := by
        simp only [taskStep, Stmt.begin, Bool.or_eq_true, decide_eq_true_eq, hNone, if_false]
      simp only [not_or, Bool.not_eq_true] at hNone
      obtain ⟨cx, hx⟩ := x.code_succeeds e hReady.ret.1
      have hStraight := Stmt.resultCode_straight hValue
      cases (Stmt.resultCode_eq hNone.1 hNone.2 hx).symm.trans hValue
      have hAct : (Action.ret (some x)).code e = .ok ((cx ++ coerce x.ty e.result ++
          [Instr.returnValue e.result] ++ e.exit).map .instr) := by
        simp only [Action.code, hx, ok_bind, pure_ok]
      exact Matches.halts hTask hAct (by simp) (Machine.run_exit e hStraight c n)
  | goto p name entry =>
    obtain ⟨_, _, l, l', _, hEmit, _⟩ := hs
    obtain ⟨sym, rfl, rfl, _⟩ := Stmt.code_goto.mp hEmit
    exact Matches.halts rfl rfl (by simp) (Machine.run_return
      (d := [.unwind e.unwind, .state (e.index sym) name]) (by simp [Straight, Instr.isStraight]) c n)

/-- Code that goes on with tasks matches their next step. -/
theorem Continues.matches (hCode : Followable e last ss code) (h : Continues e last ss code k c)
    (hLive : Live code c) (n : Nat) :
    Matches e last ss code oracle k c n := by
  induction h with
  | done h => exact Continues.done_matches h hLive n
  | pass rest ih => exact Matches.unseen rfl (ih (hLive.tail hCode.ends (by simp)))
  | enter rest ih => exact Matches.unseen rfl (ih (hLive.tail hCode.ends (by simp)))
  | jump hTarget rest ih => exact Matches.unseen rfl (ih hTarget)
  | @eval x k d c hx rest ih =>
    have hStraight := Expr.discard_straight x d hx
    have hAct : (Action.eval x).code e = .ok (d.map .instr) := by
      simp only [Action.code, hx, ok_bind, pure_ok]
    exact Matches.acts rfl hAct (by simp) (Machine.run_straight hStraight c n) rest
      (hLive.straight hCode.ends hStraight) (Or.inr (by simp [Task.rankAll, Task.rank]))
  | stmt hs rest ih => exact Continues.stmt_matches hCode hs rest hLive n
  | loop hTest hBody hStep rest ih =>
    exact Continues.loop_matches hCode hTest hBody hStep rest hLive n
  | again hTest hBody hTop rest ih =>
    exact Continues.again_matches hCode hTest hBody hTop rest hLive n

/-- The code of a body follows the structured body. -/
theorem Followable.follows (hCode : Followable e last ss code) :
    Machine.Follows (taskMachine e.result ss oracle) (codeMachine code oracle) (Action.events e)
      (Related e last ss code) fun s => Task.rankAll s.tasks := by
  rintro ⟨k, n⟩ ⟨c, m⟩ ⟨hTests, hContinues, hLive⟩
  obtain rfl : m = n := hTests
  exact (hContinues.matches hCode hLive m).steps

/-- The code never runs out of instructions, and no jump misses its label. -/
theorem Followable.not_stuck (hCode : Followable e last ss code) {s : TaskState} {t : CodeState}
    (h : Related e last ss code s t) (m : Nat) : .stuck ∉ (codeMachine code oracle).trace m t := by
  intro hStuck
  have hFollows : Machine.Follows (taskMachine e.result ss oracle) _ _ _ _ := hCode.follows
  have hPerformed : ∀ s t, Related e last ss code s t →
      ∀ a ∈ (taskStep e.result ss oracle s).1, .stuck ∉ a.events e := by
    rintro ⟨k, n⟩ ⟨c, m⟩ ⟨hTests, hContinues, hLive⟩
    obtain rfl : m = n := hTests
    exact (hContinues.matches hCode hLive m).performed
  obtain ⟨n, hPrefix⟩ := hFollows.trace_prefix m h
  obtain ⟨a, ha, hEvent⟩ := List.mem_flatMap.mp (hPrefix.subset hStuck)
  exact hFollows.forall_trace hPerformed n h a ha hEvent

end steps

theorem Surroundings.finish_eq (e : Surroundings) (c : List Instr) :
    ∃ tail, (tail = e.exit ∨ tail = []) ∧ e.finish c = c ++ tail ∧
      (e.finish c).getLast? = some .ret := by
  unfold finish
  split
  · rename_i hEnds
    refine ⟨[], Or.inr rfl, (append_nil c).symm, ?_⟩
    unfold endsInReturn at hEnds
    split at hEnds
    · assumption
    · cases hEnds
  · exact ⟨e.exit, Or.inl rfl, rfl, by simp [exit]⟩

/-- A return follows each label of code that ends in one. -/
theorem ret_mem_after {before after : List Instr} {n : Label} (h : c.getLast? = some .ret)
    (hSplit : c = before ++ .label n :: after) : .ret ∈ after := by
  rw [hSplit, List.getLast?_append, List.getLast?_cons] at h
  cases hLast : after.getLast? with
  | none => simp [hLast] at h
  | some i =>
    simp only [hLast, Option.getD_some, Option.some_or, Option.some.injEq] at h
    exact h ▸ mem_of_getLast? hLast

theorem Surroundings.labelsOf_finish (e : Surroundings) (frame : Int) (c : List Instr) :
    labelsOf (e.finish (.enterFrame frame :: c)) = labelsOf c := by
  obtain ⟨tail, hTail, hFinish, _⟩ := e.finish_eq (.enterFrame frame :: c)
  rw [hFinish, labelsOf_append]
  rcases hTail with rfl | rfl <;> exact append_nil _

namespace Routine

/-- The jumps of a sound routine go to its own labels. -/
theorem Sound.bound {round : Nat} {b : Block} (h : r.Sound Top round b)
    (hTop : ∀ s, Top s → s.kind ≠ .label)
    (sym : Symbol) (hUse : .uses .label (some sym) ∈ Stmt.notesAll b.stmts) :
    sym ∈ labelsIn (Stmt.notesAll b.stmts) := by
  obtain ⟨s, hs, hServes, hFrom⟩ := h.used _ _ hUse
  cases hs
  have hKind : sym.kind = .label := by simpa [SymbolKind.serves] using hServes
  rcases hFrom with hOuter | hDeclared
  · exact absurd hKind (hTop sym hOuter)
  · obtain ⟨kind, ty, hMem⟩ := mem_declaredIn.mp hDeclared
    obtain ⟨_, hs, hMade, _⟩ := h.made kind ty _ hMem
    cases hs
    obtain rfl : kind = .label := hMade.symm.trans hKind
    rcases List.mem_append.mp hMem with hParam | hLocal
    · simp [paramNotes] at hParam
    · exact mem_labelsIn.mpr ⟨ty, hLocal⟩

/-- In the code of a sound routine control can be followed from its first instruction. -/
theorem Sound.followable {round : Nat} {b : Block} (h : r.Sound Top round b)
    (hTop : ∀ s, Top s → s.kind ≠ .label) (hResult : e.result = r.result) (hl : l.Valid)
    (hCode : Stmt.codeAll e b.stmts l = .ok (c, l')) (frame : Int) :
    Followable e l' b.stmts (e.finish (.enterFrame frame :: c)) ∧
      Related e l' b.stmts (e.finish (.enterFrame frame :: c)) ⟨b.stmts.map .stmt, 0⟩
        ⟨e.finish (.enterFrame frame :: c), 0⟩ := by
  obtain ⟨tail, hTail, hFinish, hEnds⟩ := e.finish_eq (.enterFrame frame :: c)
  have hNumbers := Stmt.codeAll_numbers hl hCode
  have hKeys : ((labelsIn (Stmt.notesAll b.stmts)).map Symbol.key).Nodup := by
    refine List.Nodup.of_map Prod.snd ?_
    rw [map_map]
    exact h.distinct
  have hDistinct : (labelsOf (e.finish (.enterFrame frame :: c))).Nodup := by
    rw [e.labelsOf_finish]
    exact hNumbers.distinct hKeys
  have hCoded : CodedAll e l' b.stmts b.stmts c :=
    Coded.all (fun s hs => hResult ▸ h.ready s hs) (h.bound hTop) hl hCode (Labels.Grows.refl l')
  have hSuffix : c ++ tail <:+ e.finish (.enterFrame frame :: c) := by
    rw [hFinish]
    exact suffix_cons _ _
  have hEnd : Continues e l' b.stmts (e.finish (.enterFrame frame :: c)) [] tail := .done hTail
  refine ⟨⟨hDistinct, hEnds, fun sym hSym => ?_⟩, rfl, ?_, suffix_refl _, ?_⟩
  · obtain ⟨k, hk⟩ := Option.isSome_iff_exists.mp
      ((Stmt.afterAll?_isSome (fun s _ => s.after?_isSome) []).mpr hSym)
    exact ⟨k, hk, Stmt.afterAll?_reaches (fun s _ => s.after?_reaches hDistinct) hCoded hEnd
      hSuffix hk⟩
  · have hStart := Continues.enter (n := frame) (hEnd.stmts hCoded)
    rw [append_nil] at hStart
    change Continues e l' b.stmts _ _ (e.finish (.enterFrame frame :: c))
    nth_rewrite 2 [hFinish]
    exact hStart
  · change e.finish (.enterFrame frame :: c) ≠ []
    rw [hFinish]
    simp

/-- Running the code of a routine performs the actions of its structured body, whatever the outcome
of each condition. -/
def KeepsFlow (outer : Surroundings) (r : Routine) (body : Body) : Prop :=
  ∃ sym b, r.entry = some sym ∧ r.body = some b ∧
    let e := outer.enter r.result sym r.params b
    ∀ oracle : Nat → Bool,
      Machine.Agrees (taskMachine r.result b.stmts oracle) (codeMachine body.code oracle)
        (Action.events e) ⟨b.stmts.map .stmt, 0⟩ ⟨body.code, 0⟩ ∧
      ∀ n, .stuck ∉ (codeMachine body.code oracle).trace n ⟨body.code, 0⟩

/-- The code of a sound routine keeps its flow. -/
theorem Sound.keepsFlow {outer : Surroundings} {round : Nat} {b : Block} {body : Body}
    (h : r.Sound Top round b) (hTop : ∀ s, Top s → s.kind ≠ .label) (hBlock : r.body = some b)
    (hEmits : r.Emits outer body) : r.KeepsFlow outer body := by
  obtain ⟨sym, l, l', c, hEntry, _, hl, hCode, rfl⟩ := h.emits hBlock hEmits
  refine ⟨sym, b, hEntry, hBlock, fun oracle => ?_⟩
  obtain ⟨hFollowable, hStart⟩ := h.followable hTop rfl hl hCode
    (Ty.frameSize ((Stmt.localsAll b.stmts).map (·.ty)))
  exact ⟨hFollowable.follows.agrees hStart, fun n => hFollowable.not_stuck hStart n⟩

end Routine

/-- A script without errors has a program whose bodies do what its routines do, action by action. -/
theorem Session.emit_keepsFlow {script : Script} {library : Library} {privileged : Bool}
    {s : Session} (hAnalyze : (Session.start script library privileged).analyze = .ok s)
    (hFailed : s.failed = false) :
    ∃ s' p, s.emit = .ok (s', some p) ∧
      p.Implements (Routine.KeepsFlow s.surroundings) s.script := by
  have hAccepted := Session.analyze_accepted hAnalyze hFailed
  refine hAccepted.emits_all fun _ _ r body hAnalyzed hEmits => ?_
  obtain ⟨_, b, _, hBlock, _, hSound⟩ := hAnalyzed.body
  exact hSound.keepsFlow (fun _ hOffers => hOffers.kind_ne_label) hBlock hEmits

theorem Session.emit_keepsFlow_sample :
    ∃ s, (Session.start .sample ⟨[]⟩ false).analyze = .ok s ∧ s.failed = false ∧
      ∃ s' p, s.emit = .ok (s', some p) ∧
        p.Implements (Routine.KeepsFlow s.surroundings) s.script := by
  obtain ⟨s, hAnalyze, hFailed⟩ := Session.sample_analyzes
  exact ⟨s, hAnalyze, hFailed, Session.emit_keepsFlow hAnalyze hFailed⟩

end Lsl
