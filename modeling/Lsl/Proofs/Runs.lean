/-! Machines that take one step after another. One machine is followed by another when each of its
steps is matched by steps that perform the same events; the two then perform the same sequence of
events, whether it ends or not. -/
namespace Lsl

open List

/-- A machine. Each step performs events in order and leads to a state or to a halt. -/
structure Machine (State Event : Type) where
  step : State → List Event × Option State

namespace Machine

variable {State Event : Type} (m : Machine State Event)

def run : Nat → State → List Event × Option State
  | 0, s => ([], some s)
  | n + 1, s =>
    match m.step s with
    | (es, none) => (es, none)
    | (es, some s') => (es ++ (run n s').1, (run n s').2)

def trace (n : Nat) (s : State) : List Event := (m.run n s).1

variable {m} {s s' : State} {es : List Event} {k : Nat}

theorem run_halt (h : m.step s = (es, none)) (n : Nat) : m.run (n + 1) s = (es, none) := by
  rw [run, h]

theorem run_next (h : m.step s = (es, some s')) (n : Nat) :
    m.run (n + 1) s = (es ++ (m.run n s').1, (m.run n s').2) := by
  rw [run, h]

theorem run_one (h : m.step s = (es, some s')) : m.run 1 s = (es, some s') := by
  rw [run_next h, run, append_nil]

theorem run_add (h : m.run k s = (es, some s')) (n : Nat) :
    m.run (k + n) s = (es ++ (m.run n s').1, (m.run n s').2) := by
  induction k generalizing s es with
  | zero =>
    cases h
    simp
  | succ k ih =>
    rcases hStep : m.step s with ⟨first, next⟩
    cases next with
    | none =>
      rw [run_halt hStep] at h
      cases h
    | some t =>
      rw [run_next hStep] at h
      obtain ⟨rfl, hRest⟩ := Prod.mk.inj h
      have hTail := @ih t (m.run k t).1 (Prod.ext rfl hRest)
      rw [Nat.add_right_comm, run_next hStep, hTail, append_assoc]

theorem run_add_halted (h : m.run k s = (es, none)) (n : Nat) : m.run (k + n) s = (es, none) := by
  induction k generalizing s es with
  | zero => cases h
  | succ k ih =>
    rcases hStep : m.step s with ⟨first, next⟩
    rw [Nat.add_right_comm]
    cases next with
    | none =>
      rw [run_halt hStep] at h ⊢
      exact h
    | some t =>
      rw [run_next hStep] at h ⊢
      obtain ⟨rfl, hRest⟩ := Prod.mk.inj h
      rw [@ih t (m.run k t).1 (Prod.ext rfl hRest)]

/-- More steps add events at the end. -/
theorem trace_prefix (k n : Nat) (s : State) : m.trace k s <+: m.trace (k + n) s := by
  unfold trace
  rcases hRun : m.run k s with ⟨es, out⟩
  cases out with
  | none =>
    rewrite [run_add_halted hRun]
    exact prefix_refl _
  | some t =>
    rw [run_add hRun]
    exact prefix_append _ _

section simulation

variable {A B α β : Type}

/-- Each step of a machine over `A` is matched by steps of one over `B`, which perform what `f` makes
of its events. Where there are none, the rank gets smaller. -/
def Follows (a : Machine A α) (b : Machine B β) (f : α → List β) (R : A → B → Prop)
    (rank : A → Nat) : Prop :=
  ∀ s t, R s t → ∃ k out, b.run k t = ((a.step s).1.flatMap f, out) ∧
    Option.Rel (fun s' t' => R s' t' ∧ (0 < k ∨ rank s' < rank s)) (a.step s).2 out

variable {a : Machine A α} {b : Machine B β} {f : α → List β} {R : A → B → Prop} {rank : A → Nat}

theorem Follows.trace_eq (h : Follows a b f R rank) (n : Nat) {s : A} {t : B} (hR : R s t) :
    ∃ m, b.trace m t = (a.trace n s).flatMap f := by
  induction n generalizing s t with
  | zero => exact ⟨0, rfl⟩
  | succ n ih =>
    obtain ⟨k, out, hRun, hOut⟩ := h s t hR
    rcases hStep : a.step s with ⟨es, next⟩
    rw [hStep] at hRun hOut
    cases hOut with
    | none =>
      refine ⟨k, ?_⟩
      rw [trace, trace, hRun, run_halt hStep]
    | some hNext =>
      obtain ⟨m, hm⟩ := ih hNext.1
      refine ⟨k + m, ?_⟩
      rw [trace, trace, run_add hRun, run_next hStep, flatMap_append]
      exact congrArg _ hm

/-- What holds of the events of each step holds of the events of a run. -/
theorem Follows.forall_trace (h : Follows a b f R rank) {P : α → Prop}
    (hStep : ∀ s t, R s t → ∀ x ∈ (a.step s).1, P x) (n : Nat) {s : A} {t : B} (hR : R s t) :
    ∀ x ∈ a.trace n s, P x := by
  induction n generalizing s t with
  | zero => simp [trace, run]
  | succ n ih =>
    obtain ⟨k, out, _, hOut⟩ := h s t hR
    have hFirst := hStep s t hR
    rcases hNext : a.step s with ⟨es, next⟩
    rw [hNext] at hOut hFirst
    cases hOut with
    | none =>
      rw [trace, run_halt hNext]
      exact hFirst
    | some hRel =>
      rw [trace, run_next hNext]
      intro x hx
      rcases List.mem_append.mp hx with hx | hx
      · exact hFirst x hx
      · exact ih hRel.1 x hx

/-- No event of the second machine is more than the first one performs. The induction is on the steps
of the second machine, and among steps of the first that it does not match, on the rank. -/
theorem Follows.trace_prefix (h : Follows a b f R rank) (m : Nat) {s : A} {t : B} (hR : R s t) :
    ∃ n, b.trace m t <+: (a.trace n s).flatMap f := by
  induction m using Nat.strongRecOn generalizing s t with
  | ind m ihSteps =>
  induction hRank : rank s using Nat.strongRecOn generalizing s with
  | ind r ihRank =>
  obtain ⟨k, out, hRun, hOut⟩ := h s t hR
  rcases hStep : a.step s with ⟨es, next⟩
  rw [hStep] at hRun hOut
  by_cases hShort : m ≤ k
  · by_cases hNone : k = 0
    · obtain rfl : m = 0 := by omega
      exact ⟨0, nil_prefix⟩
    · obtain ⟨d, rfl⟩ := Nat.exists_eq_add_of_le hShort
      refine ⟨1, (Machine.trace_prefix m d t).trans ?_⟩
      have hFirst : (a.trace 1 s) = es := by
        cases next with
        | none => rw [trace, run_halt hStep]
        | some s' => rw [trace, run_next hStep, run, append_nil]
      rewrite [trace, hRun, hFirst]
      exact prefix_refl _
  · obtain ⟨d, rfl⟩ := Nat.exists_eq_add_of_le (Nat.le_of_not_le hShort)
    cases hOut with
    | none =>
      refine ⟨1, ?_⟩
      rewrite [trace, trace, run_add_halted hRun, run_halt hStep]
      exact prefix_refl _
    | some hNext =>
      rename_i s' t'
      have hRest : ∃ n, b.trace d t' <+: (a.trace n s').flatMap f := by
        rcases hNext.2 with hk | hSmaller
        · exact ihSteps d (by omega) hNext.1
        · by_cases hk : k = 0
          · subst hk
            obtain ⟨_, hSame⟩ := Prod.mk.inj hRun
            cases hSame
            rw [Nat.zero_add] at ihRank ihSteps
            exact ihRank _ (hRank ▸ hSmaller) hNext.1 rfl
          · exact ihSteps d (by omega) hNext.1
      obtain ⟨n, hn⟩ := hRest
      refine ⟨n + 1, ?_⟩
      rw [trace, trace, run_add hRun, run_next hStep, flatMap_append]
      exact (prefix_append_right_inj _).mpr hn

/-- The machines perform the same sequence of events, where `f` says what the second makes of an event
of the first. -/
structure Agrees (a : Machine A α) (b : Machine B β) (f : α → List β) (s : A) (t : B) : Prop where
  forth : ∀ n, ∃ m, (a.trace n s).flatMap f <+: b.trace m t
  back : ∀ m, ∃ n, b.trace m t <+: (a.trace n s).flatMap f

theorem Follows.agrees (h : Follows a b f R rank) {s : A} {t : B} (hR : R s t) :
    Agrees a b f s t := by
  refine ⟨fun n => ?_, fun m => h.trace_prefix m hR⟩
  obtain ⟨m, hm⟩ := h.trace_eq n hR
  exact ⟨m, hm ▸ prefix_refl _⟩

end simulation
end Machine
end Lsl
