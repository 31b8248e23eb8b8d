import Lsl.Proofs.Labels
import Lsl.Proofs.Runs

/-! Control flow in a structured body and in its code, each as a machine. Both leave the outcome of a
condition to an oracle: it answers the first test, the second and so on. -/
namespace Lsl

/-- What can be seen of code that runs. Labels, jumps and the beginning of a frame cannot. -/
inductive Event where
  | instr (i : Instr)
  /-- The value on top of the stack is taken and tested. -/
  | test (t : Ty) (holds : Bool)
  /-- There is no next instruction. -/
  | stuck

/-- Where control stands in code: what is ahead, and the number of tests so far. -/
structure CodeState where
  ahead : List Instr
  tests : Nat := 0

def target (n : Label) (c : List Instr) : List Instr := c.dropWhile fun i => i.label? != some n

def codeStep (code : List Instr) (oracle : Nat → Bool) (s : CodeState) :
    List Event × Option CodeState :=
  let holds := oracle s.tests
  match s.ahead with
  | [] => ([.stuck], none)
  | .label _ :: rest | .enterFrame _ :: rest => ([], some { s with ahead := rest })
  | .jump n :: _ => ([], some { s with ahead := target n code })
  | .jumpIf t n :: rest =>
    ([.test t holds], some ⟨if holds then target n code else rest, s.tests + 1⟩)
  | .jumpNot t n :: rest =>
    ([.test t holds], some ⟨if holds then rest else target n code, s.tests + 1⟩)
  | .ret :: _ => ([.instr .ret], none)
  | i :: rest => ([.instr i], some { s with ahead := rest })

def codeMachine (code : List Instr) (oracle : Nat → Bool) : Machine CodeState Event :=
  ⟨codeStep code oracle⟩

/-- What a structured body does, one action after the other. -/
inductive Action where
  | eval (x : Expr)
  | declare (ty : Ty) (init : Expr) (entry : Option Symbol)
  | test (cond : Expr) (holds : Bool)
  /-- Returns, with a value if one is to be evaluated. -/
  | ret (value : Option Expr)
  | goto (state : String) (entry : Option Symbol)
  | fallOff
  /-- There is no label to jump to. -/
  | lost

/-- What remains to be done. -/
inductive Task where
  | stmt (s : Stmt)
  | eval (x : Expr)
  /-- The rounds of a loop that tests first. -/
  | loop (cond : Expr) (step : List Expr) (body : Stmt)
  /-- The rounds of a loop after the first, where it tests last. -/
  | again (body : Stmt) (cond : Expr)

/-- A structured body under way: what remains, and the number of tests so far. -/
structure TaskState where
  tasks : List Task
  tests : Nat := 0

namespace Stmt

mutual

/-- What remains right after a label in a statement, where `k` remains after the statement. -/
def after? (sym : Symbol) : Stmt → List Task → Option (List Task)
  | label _ _ entry, k => if entry = some sym then some k else none
  | block _ _ ss, k => afterAll? sym ss k
  | ifThen _ _ _ t _ f, k => (after? sym t k).or (after? sym f k)
  | .while _ x _ b, k => after? sym b (.loop x [] b :: k)
  | doWhile _ _ b x, k => after? sym b (.again b x :: k)
  | .for _ _ x step _ b, k => after? sym b (step.map .eval ++ .loop x step b :: k)
  | missing, _ | expr .., _ | decl .., _ | jump .., _ | ret .., _ | goto .., _ | empty _, _ => none

def afterAll? (sym : Symbol) : List Stmt → List Task → Option (List Task)
  | [], _ => none
  | s :: ss, k => (after? sym s (ss.map .stmt ++ k)).or (afterAll? sym ss k)

end

theorem afterAll?_isSome {sym : Symbol} {ss : List Stmt}
    (ih : ∀ s ∈ ss, ∀ k, (s.after? sym k).isSome = true ↔ sym ∈ labelsIn s.notes) (k : List Task) :
    (afterAll? sym ss k).isSome = true ↔ sym ∈ labelsIn (notesAll ss) := by
  induction ss with
  | nil => simp [afterAll?, notesAll, labelsIn]
  | cons s ss ihTail =>
    rw [afterAll?, Option.isSome_or, Bool.or_eq_true, notesAll, labelsIn_append, List.mem_append,
      ih s (by simp), ihTail fun t ht => ih t (by simp [ht])]

/-- A label is found in a statement exactly if it stands there. -/
theorem after?_isSome {sym : Symbol} (s : Stmt) (k : List Task) :
    (s.after? sym k).isSome = true ↔ sym ∈ labelsIn s.notes := by
  induction s generalizing k with
  | block p scope ss ih => exact afterAll?_isSome ih k
  | label p name entry =>
    have hOwn : labelsIn (label p name entry).notes = entry.toList := by cases entry <;> rfl
    rw [hOwn, after?, Option.mem_toList]
    split <;> simp_all
  | ifThen p x ts t es f iht ihf =>
    rw [after?, Option.isSome_or, Bool.or_eq_true, labelsIn_ifThen, List.mem_append, iht, ihf]
  | whileLoop p x bs b ih =>
    rw [labelsIn_while]
    exact ih _
  | doWhile p bs b x ih =>
    rw [labelsIn_doWhile]
    exact ih _
  | forLoop p init x step bs b ih =>
    rw [labelsIn_for]
    exact ih _
  | expr p x | ret p x => simp [after?, notes, x.labelsIn_notes]
  | decl p name ty x entry =>
    have hNone : labelsIn [.declares .local ty entry] = [] := rfl
    simp [after?, notes, x.labelsIn_notes, hNone]
  | _ => simp [after?, notes, labelsIn, Note.label?]

/-- The first step of a statement in a body with the given result, where `k` remains after it. -/
def begin (result : Ty) (body : List Stmt) (oracle : Nat → Bool) (k : List Task) (n : Nat) :
    Stmt → List Action × Option TaskState
  | missing | empty _ | label .. => ([], some ⟨k, n⟩)
  | block _ _ ss => ([], some ⟨ss.map .stmt ++ k, n⟩)
  | expr _ x => ([.eval x], some ⟨k, n⟩)
  | decl _ _ ty x entry => ([.declare ty x entry], some ⟨k, n⟩)
  | ifThen _ x _ t _ f =>
    ([.test x (oracle n)], some ⟨.stmt (if oracle n then t else f) :: k, n + 1⟩)
  | .while _ x _ b => ([], some ⟨.loop x [] b :: k, n⟩)
  | doWhile _ _ b x => ([], some ⟨.stmt b :: .again b x :: k, n⟩)
  | .for _ init x step _ b => ([], some ⟨init.map .eval ++ .loop x step b :: k, n⟩)
  | jump _ _ entry =>
    match entry.bind (afterAll? · body []) with
    | some k' => ([], some ⟨k', n⟩)
    | none => ([.lost], none)
  | ret _ x => ([.ret (if x.isMissing || result = .void then none else some x)], none)
  | goto _ name entry => ([.goto name entry], none)

end Stmt

/-- Takes up what remains of a body. -/
def taskStep (result : Ty) (body : List Stmt) (oracle : Nat → Bool) (s : TaskState) :
    List Action × Option TaskState :=
  let holds := oracle s.tests
  match s.tasks with
  | [] => ([.fallOff], none)
  | .stmt t :: k => t.begin result body oracle k s.tests
  | .eval x :: k => ([.eval x], some ⟨k, s.tests⟩)
  | .loop x step b :: k =>
    let round := .stmt b :: (step.map .eval ++ .loop x step b :: k)
    if x.isMissing then ([], some ⟨round, s.tests⟩)
    else ([.test x holds], some ⟨if holds then round else k, s.tests + 1⟩)
  | .again b x :: k =>
    ([.test x holds], some ⟨if holds then .stmt b :: .again b x :: k else k, s.tests + 1⟩)

def taskMachine (result : Ty) (body : List Stmt) (oracle : Nat → Bool) :
    Machine TaskState Action :=
  ⟨taskStep result body oracle⟩

namespace Action

/-- The code of one action, as it is seen when it runs. -/
def code (e : Surroundings) : Action → Except Fault (List Event)
  | eval x => do return (← x.discard e).map .instr
  | declare ty x entry => do
    let s ← Fault.unbound.need entry
    return ((← Stmt.initCode e ty x) ++ [Instr.store false ty (e.offset s) "" false]).map .instr
  | test x holds => do return (← x.code e).map .instr ++ [.test x.ty holds]
  | ret none => return e.exit.map .instr
  | ret (some x) => do
    let value := (← x.code e) ++ coerce x.ty e.result
    return (value ++ [Instr.returnValue e.result] ++ e.exit).map .instr
  | goto name entry => do
    let s ← Fault.unbound.need entry
    return [.instr (.unwind e.unwind), .instr (.state (e.index s) name), .instr .ret]
  | fallOff => return e.exit.map .instr
  | lost => return [.stuck]

def events (e : Surroundings) (a : Action) : List Event :=
  match a.code e with
  | .ok es => es
  | .error _ => [.stuck]

end Action

namespace Machine

/-- Straight code runs to its end. -/
theorem run_straight {code d : List Instr} {oracle : Nat → Bool} (h : Straight d) (c : List Instr)
    (n : Nat) : (codeMachine code oracle).run d.length ⟨d ++ c, n⟩ =
      (d.map .instr, some ⟨c, n⟩) := by
  induction d with
  | nil => rfl
  | cons i d ih =>
    have hStep : (codeMachine code oracle).step ⟨i :: (d ++ c), n⟩ =
        ([.instr i], some ⟨d ++ c, n⟩) := by
      have hStraight := h i (by simp)
      cases i with
      | label m | jump m | enterFrame m | ret | jumpIf t m | jumpNot t m => cases hStraight
      | _ => rfl
    rw [List.cons_append, List.length_cons, run_next hStep, ih fun j hj => h j (by simp [hj])]
    rfl

variable {code d : List Instr} {oracle : Nat → Bool}

theorem run_testNot (h : Straight d) (t : Ty) (l : Label) (c : List Instr) (n : Nat) :
    (codeMachine code oracle).run (d.length + 1) ⟨d ++ .jumpNot t l :: c, n⟩ =
      (d.map .instr ++ [Event.test t (oracle n)],
        some ⟨if oracle n then c else target l code, n + 1⟩) :=
  run_add (run_straight h _ n) 1

theorem run_testIf (h : Straight d) (t : Ty) (l : Label) (c : List Instr) (n : Nat) :
    (codeMachine code oracle).run (d.length + 1) ⟨d ++ .jumpIf t l :: c, n⟩ =
      (d.map .instr ++ [Event.test t (oracle n)],
        some ⟨if oracle n then target l code else c, n + 1⟩) :=
  run_add (run_straight h _ n) 1

theorem run_return (h : Straight d) (c : List Instr) (n : Nat) :
    (codeMachine code oracle).run (d.length + 1) ⟨d ++ .ret :: c, n⟩ =
      ((d ++ [Instr.ret]).map .instr, none) := by
  rw [List.map_append]
  exact run_add (run_straight h _ n) 1

theorem run_exit (e : Surroundings) (h : Straight d) (c : List Instr) (n : Nat) :
    (codeMachine code oracle).run (d.length + 1 + 1) ⟨d ++ e.exit ++ c, n⟩ =
      ((d ++ e.exit).map .instr, none) := by
  have hRun := @run_return code _ oracle (h.append (Straight.single (i := .unwind e.unwind) rfl)) c n
  simpa [Surroundings.exit] using hRun

end Machine

/-- Where the labels of code differ, a label is found where it stands. -/
theorem target_eq {n : Label} {c code : List Instr} (hDistinct : (labelsOf code).Nodup)
    (h : (.label n :: c) <:+ code) : target n code = .label n :: c := by
  obtain ⟨pre, rfl⟩ := h
  rw [labelsOf_append, List.nodup_append] at hDistinct
  have hBefore : ∀ i ∈ pre, (i.label? != some n) = true := by
    intro i hi
    refine bne_iff_ne.mpr fun hLabel => ?_
    exact hDistinct.2.2 n (List.mem_filterMap.mpr ⟨i, hi, hLabel⟩) n (by simp) rfl
  unfold target
  rw [List.dropWhile_append_of_pos hBefore]
  simp [Instr.label?]

end Lsl
