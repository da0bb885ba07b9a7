import Mathlib.Logic.Function.Iterate
import Mathlib.Tactic.Common

/-!
# Runs of a partial step function

A system is given by `step : σ → α → Option σ`: the label `a` picks who moves
and what it asks for, and `none` says that the move is not possible. A run from
`s` to `s'` is a sequence of moves, each of which satisfies a side condition
`ok` on the state before, the label and the state after. The side condition is
an explicit parameter, so that the runs in which a counter stays below a bound
and the runs that avoid a given branch are two instances of one definition;
`anyStep` is the instance without a condition.

`exec` is the executable form, used to exhibit concrete runs, and `Reaches` iterates one
partial function, such as the step of a thread that runs alone.
-/

namespace Transition

/-- The parts of a result. -/
theorem pair_eq {α β : Type*} {a c : α} {b d : β} (h : some (a, b) = some (c, d)) :
    a = c ∧ b = d :=
  Prod.mk.inj (Option.some.inj h)

theorem map_pair_eq {γ α β : Type*} {o : Option γ} {f : γ → α} {g : γ → β} {a : α} {b : β}
    (h : (o.map fun w => (f w, g w)) = some (a, b)) : ∃ w, o = some w ∧ f w = a ∧ g w = b := by
  obtain ⟨w, hw, heq⟩ := Option.map_eq_some_iff.1 h
  exact ⟨w, hw, Prod.mk.inj heq⟩

variable {σ α : Type*}

/-- A run of `step`, every move of which satisfies `ok`. -/
inductive Run (step : σ → α → Option σ) (ok : σ → α → σ → Prop) (s : σ) : σ → Prop
  | refl : Run step ok s s
  | tail {s₁ s₂ : σ} (a : α) (h : Run step ok s s₁) (hs : step s₁ a = some s₂)
      (hok : ok s₁ a s₂) : Run step ok s s₂

def anyStep (_ : σ) (_ : α) (_ : σ) : Prop := True

instance (s : σ) (a : α) (s' : σ) : Decidable (anyStep s a s') :=
  inferInstanceAs (Decidable True)

namespace Run

variable {step : σ → α → Option σ} {ok ok' : σ → α → σ → Prop}

theorem trans {s₁ s₂ s₃ : σ} (h₁ : Run step ok s₁ s₂) (h₂ : Run step ok s₂ s₃) :
    Run step ok s₁ s₃ := by
  induction h₂ with
  | refl => exact h₁
  | tail a _ hs hok ih => exact .tail a ih hs hok

theorem mono (hok : ∀ s a s', ok s a s' → ok' s a s') {s s' : σ}
    (h : Run step ok s s') : Run step ok' s s' := by
  induction h with
  | refl => exact .refl
  | tail a _ hs hok₁ ih => exact .tail a ih hs (hok _ _ _ hok₁)

/-- A property kept by every admitted move of the run holds at its end. The
induction hypothesis also gives the run so far, so that an invariant proved
earlier can be used. -/
theorem induction_on {P : σ → Prop} {s s' : σ} (h : Run step ok s s') (h₀ : P s)
    (hstep : ∀ s₁ a s₂, Run step ok s s₁ → P s₁ → step s₁ a = some s₂ →
      ok s₁ a s₂ → P s₂) : P s' := by
  induction h with
  | refl => exact h₀
  | tail a hr hs hok ih => exact hstep _ a _ hr ih hs hok

end Run

section Exec

variable (step : σ → α → Option σ) (ok : σ → α → σ → Prop)
  [∀ s a s', Decidable (ok s a s')]

/-- Executes a list of labels, `none` as soon as one of them is not possible or
violates the side condition. -/
def exec : σ → List α → Option σ
  | s, [] => some s
  | s, a :: l => (step s a).bind fun s' => if ok s a s' then exec s' l else none

@[simp] theorem exec_nil (s : σ) : exec step ok s [] = some s := rfl

theorem exec_cons (s : σ) (a : α) (l : List α) :
    exec step ok s (a :: l) =
      (step s a).bind fun s' => if ok s a s' then exec step ok s' l else none := rfl

variable {step ok}

/-- An executed list of labels is a run. -/
theorem run_of_exec {s s' : σ} {l : List α} (h : exec step ok s l = some s') :
    Run step ok s s' := by
  induction l generalizing s with
  | nil =>
      obtain rfl := Option.some.inj h
      exact .refl
  | cons a l ih =>
      rw [exec_cons] at h
      obtain ⟨s₁, hs₁, h₁⟩ := Option.bind_eq_some_iff.1 h
      split at h₁
      · next hok => exact Run.trans (.tail a .refl hs₁ hok) (ih h₁)
      · cases h₁

/-- A list of labels that ends in a state with the property `P`. -/
theorem exists_run_of_exec {s : σ} {P : σ → Prop} [DecidablePred P] (l : List α)
    (h : ((exec step ok s l).any fun s' => decide (P s')) = true) :
    ∃ s', Run step ok s s' ∧ P s' := by
  cases hs : exec step ok s l with
  | none =>
      rw [hs] at h
      cases h
  | some s' =>
      rw [hs] at h
      exact ⟨s', run_of_exec hs, of_decide_eq_true h⟩

end Exec

/-- The iteration of a partial function leads from `s` to the state. -/
inductive Reaches (f : σ → Option σ) (s : σ) : σ → Prop
  | refl : Reaches f s s
  | tail {s₁ s₂ : σ} (h : Reaches f s s₁) (hs : f s₁ = some s₂) : Reaches f s s₂

namespace Reaches

variable {f : σ → Option σ} {s s₁ s₂ : σ}

theorem trans (h₁ : Reaches f s s₁) (h₂ : Reaches f s₁ s₂) : Reaches f s s₂ := by
  induction h₂ with
  | refl => exact h₁
  | tail _ hs ih => exact .tail ih hs

theorem head (s₁ : σ) (hs : f s = some s₁) (h : Reaches f s₁ s₂) : Reaches f s s₂ :=
  trans (.tail .refl hs) h

/-- A number of steps that can be evaluated. -/
theorem of_iterate (n : ℕ) (h : (Option.bind · f)^[n] (some s) = some s₁) : Reaches f s s₁ := by
  induction n generalizing s with
  | zero =>
      obtain rfl := Option.some.inj h
      exact .refl
  | succ n ih =>
      rw [Function.iterate_succ_apply] at h
      cases hs : f s with
      | none =>
          have hnone : ∀ k, (Option.bind · f)^[k] (none : Option σ) = none := by
            intro k
            induction k with
            | zero => rfl
            | succ k ihk =>
                rw [Function.iterate_succ_apply]
                exact ihk
          rw [show Option.bind (some s) f = none from hs, hnone] at h
          cases h
      | some s₂ =>
          exact head s₂ hs (ih (by rwa [show Option.bind (some s) f = some s₂ from hs] at h))

end Reaches

end Transition
