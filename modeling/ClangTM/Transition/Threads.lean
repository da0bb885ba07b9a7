import Mathlib.Data.Finset.Card
import ClangTM.Transition.Run

/-!
# Systems of threads

Any number of threads over one shared state. A system is given by the step function of
one thread, `next : T → S → X → C → Option (S × X)`; a label of the system is the thread
that moves and what it is asked to do.

`Counts` says that a counter of the shared state is the number of threads with some
property of their local state, which is how reader counts and reference counts are kept.
-/

namespace Transition

/-- A shared state and the local state of every thread. -/
structure Threads (S X T : Type*) where
  shared : S
  tx : T → X

namespace Threads

variable {S X T C : Type*} [DecidableEq T]

def put (s : Threads S X T) (t : T) (σ : S) (x : X) : Threads S X T :=
  ⟨σ, Function.update s.tx t x⟩

/-- Any thread moves, by the step function of one thread. -/
def step (next : T → S → X → C → Option (S × X)) (s : Threads S X T) (l : T × C) :
    Option (Threads S X T) :=
  (next l.1 s.shared (s.tx l.1) l.2).map fun p => s.put l.1 p.1 p.2

variable {s : Threads S X T} {t : T} {σ : S} {x : X} {next : T → S → X → C → Option (S × X)}

@[simp] theorem put_shared : (s.put t σ x).shared = σ := rfl

@[simp] theorem put_tx_self : (s.put t σ x).tx t = x := Function.update_self _ _ _

theorem put_tx_of_ne {u : T} (h : u ≠ t) : (s.put t σ x).tx u = s.tx u :=
  Function.update_of_ne h _ _

@[simp] theorem put_put {σ' : S} {x' : X} : (s.put t σ x).put t σ' x' = s.put t σ' x' := by
  simp [put]

theorem step_eq_some {l : T × C} {s' : Threads S X T} (h : step next s l = some s') :
    ∃ σ x, next l.1 s.shared (s.tx l.1) l.2 = some (σ, x) ∧ s' = s.put l.1 σ x := by
  obtain ⟨⟨σ, x⟩, hnext, rfl⟩ := Option.map_eq_some_iff.1 h
  exact ⟨σ, x, hnext, rfl⟩

def calls (t : T) (cs : List C) : List (T × C) := cs.map fun c => (t, c)

/-- The first step of an executed list of labels. -/
theorem exec_cons_of_next {l : T × C} {ls : List (T × C)}
    (h : next l.1 s.shared (s.tx l.1) l.2 = some (σ, x)) :
    exec (step next) anyStep s (l :: ls) = exec (step next) anyStep (s.put l.1 σ x) ls := by
  simp [exec_cons, step, h, anyStep]

/-- One more step of a thread. -/
theorem exec_put {c : C} {ls : List (T × C)} {σ₀ : S} {x₀ : X} (h : next t σ₀ x₀ c = some (σ, x)) :
    exec (step next) anyStep (s.put t σ₀ x₀) ((t, c) :: ls) =
      exec (step next) anyStep (s.put t σ x) ls := by
  rw [exec_cons_of_next (by rwa [put_tx_self]), put_put]

@[simp] theorem put_self (s : Threads S X T) (t : T) : s.put t s.shared (s.tx t) = s := by
  simp [put]

section Alone

variable {next : T → S → X → C → Option (S × X)} {c : C} {s₀ : Threads S X T} {σ' : S} {x' : X}
  {ok : Threads S X T → T × C → Threads S X T → Prop}

/-- A call of a thread that the side condition admits, after steps of that thread. -/
theorem run_put_of_next_ok (hok : ∀ s s', ok s (t, c) s')
    (hr : Run (step next) ok s₀ (s.put t σ x)) (h : next t σ x c = some (σ', x')) :
    Run (step next) ok s₀ (s.put t σ' x') := by
  refine .tail (t, c) hr ?_ (hok _ _)
  rw [step, put_shared, put_tx_self, h]
  simp

/-- A thread that runs alone, by steps that the side condition admits. -/
theorem run_put_of_reaches_ok (hok : ∀ s s', ok s (t, c) s')
    (hr : Run (step next) ok s₀ (s.put t σ x))
    (h : Reaches (fun p => next t p.1 p.2 c) (σ, x) (σ', x')) :
    Run (step next) ok s₀ (s.put t σ' x') := by
  suffices hall : ∀ p, Reaches (fun p => next t p.1 p.2 c) (σ, x) p →
      Run (step next) ok s₀ (s.put t p.1 p.2) from hall _ h
  intro p hp
  induction hp with
  | refl => exact hr
  | tail _ hs ih => exact run_put_of_next_ok hok ih hs

/-- A call of a thread, after steps of that thread. -/
theorem run_put_of_next (hr : Run (step next) anyStep s₀ (s.put t σ x))
    (h : next t σ x c = some (σ', x')) : Run (step next) anyStep s₀ (s.put t σ' x') :=
  run_put_of_next_ok (fun _ _ => trivial) hr h

/-- A thread that runs alone, after steps of that thread. -/
theorem run_put_of_reaches (hr : Run (step next) anyStep s₀ (s.put t σ x))
    (h : Reaches (fun p => next t p.1 p.2 c) (σ, x) (σ', x')) :
    Run (step next) anyStep s₀ (s.put t σ' x') :=
  run_put_of_reaches_ok (fun _ _ => trivial) hr h

end Alone

/-- A property of all threads, after a step of one of them. -/
theorem forall_put {P : T → X → Prop} (hx : P t x) (h : ∀ u, u ≠ t → P u (s.tx u)) (u : T) :
    P u ((s.put t σ x).tx u) := by
  by_cases hu : u = t
  · subst hu
    rw [put_tx_self]
    exact hx
  · rw [put_tx_of_ne hu]
    exact h u hu

/-- The threads whose local state satisfies `P` are `n` in number. -/
def Counts (P : X → Prop) (s : Threads S X T) (n : ℕ) : Prop :=
  ∃ R : Finset T, (∀ t, t ∈ R ↔ P (s.tx t)) ∧ R.card = n

namespace Counts

variable {P : X → Prop} {n : ℕ}

omit [DecidableEq T] in
theorem zero_of_forall (h : ∀ t, ¬P (s.tx t)) : Counts P s 0 :=
  ⟨∅, fun t => by simp [h t], rfl⟩

omit [DecidableEq T] in
theorem not_of_zero (h : Counts P s 0) (t : T) : ¬P (s.tx t) := by
  obtain ⟨R, hR, hcard⟩ := h
  rw [← hR, Finset.card_eq_zero.1 hcard]
  exact Finset.notMem_empty t

/-- A step that does not change whether its thread is counted. -/
theorem put_same (h : Counts P s n) (hx : P x ↔ P (s.tx t)) : Counts P (s.put t σ x) n := by
  obtain ⟨R, hR, hcard⟩ := h
  refine ⟨R, fun u => ?_, hcard⟩
  rw [hR]
  by_cases hu : u = t
  · subst hu
    rw [put_tx_self, hx]
  · rw [put_tx_of_ne hu]

/-- A step by which its thread comes to be counted. -/
theorem put_in (h : Counts P s n) (ht : ¬P (s.tx t)) (hx : P x) :
    Counts P (s.put t σ x) (n + 1) := by
  obtain ⟨R, hR, rfl⟩ := h
  refine ⟨insert t R, fun u => ?_, Finset.card_insert_of_notMem (by rwa [hR])⟩
  rw [Finset.mem_insert, hR]
  by_cases hu : u = t
  · subst hu
    simp [hx]
  · simp [put_tx_of_ne hu, hu]

/-- A step by which its thread is no longer counted. -/
theorem put_out (h : Counts P s n) (ht : P (s.tx t)) (hx : ¬P x) :
    Counts P (s.put t σ x) (n - 1) := by
  obtain ⟨R, hR, rfl⟩ := h
  refine ⟨R.erase t, fun u => ?_, Finset.card_erase_of_mem ((hR t).2 ht)⟩
  rw [Finset.mem_erase, hR]
  by_cases hu : u = t
  · subst hu
    simp [hx]
  · simp [put_tx_of_ne hu, hu]

end Counts

end Threads

end Transition
