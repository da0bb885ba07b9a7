import Mathlib.Logic.Relation
import ClangTM.Certify.Invariant
import ClangTM.Transition.Threads

/-!
# Implementations of the certifying protocol

A step of an implementation is any number of moves of the protocol by one transaction
(`Moves`); what another transaction has established is stable under them.

A `Design` says how the states of a system of threads stand for states of the protocol:
where the book and the history of a transaction are kept, what is known of the shared
state (`Shape`) and of a thread (`Knows`), and at which words memory may differ from the
committed memory because a thread has still to write them, or has written them too early
(`Pending`). The invariant `Design.Inv` then holds in every reachable state if every step
satisfies `Design.Next`.
-/

namespace Certify

open Serial VersionLock Transition

variable {A V L T : Type*} [DecidableEq A] [DecidableEq L] [DecidableEq T]

def Moves (lock : A → L) (m₀ : A → V) (t : T) : State A V L T → State A V L T → Prop :=
  Relation.ReflTransGen fun s s' => Step lock m₀ s t s'

namespace Moves

variable {lock : A → L} {m₀ : A → V} {s s' s'' : State A V L T} {t u : T}

theorem refl (lock : A → L) (m₀ : A → V) (t : T) (s : State A V L T) :
    Moves lock m₀ t s s :=
  Relation.ReflTransGen.refl

theorem single (hs : Step lock m₀ s t s') : Moves lock m₀ t s s' :=
  Relation.ReflTransGen.single hs

section

variable (hm : Moves lock m₀ t s s')
include hm

theorem inv (h : Inv lock m₀ s) : Inv lock m₀ s' := by
  induction hm with
  | refl => exact h
  | tail _ hs ih => exact ih.step hs

theorem clock_le : s.clock ≤ s'.clock := by
  induction hm with
  | refl => exact le_rfl
  | tail _ hs ih => exact ih.trans hs.clock_le

theorem ver_le (ℓ : L) : s.ver ℓ ≤ s'.ver ℓ := by
  induction hm with
  | refl => exact le_rfl
  | tail _ hs ih => exact ih.trans (hs.ver_le ℓ)

theorem tx_of_ne (hne : u ≠ t) : s'.tx u = s.tx u := by
  induction hm with
  | refl => rfl
  | tail _ hs ih => exact (hs.tx_of_ne hne).trans ih

theorem owner_iff (hne : u ≠ t) (ℓ : L) : s'.owner ℓ = some u ↔ s.owner ℓ = some u := by
  induction hm with
  | refl => exact Iff.rfl
  | tail _ hs ih => exact (hs.owner_iff_of_ne hne ℓ).trans ih

theorem seen (h : Inv lock m₀ s) {a : A} {n : ℕ} {v : V} (hseen : Seen lock m₀ s a n v) :
    Seen lock m₀ s' a n v := by
  induction hm with
  | refl => exact hseen
  | tail hm hs ih => exact ih.step (inv hm h) hs

theorem kept (h : Inv lock m₀ s) {r : Entry A V} {e : ℕ} (hk : Kept lock m₀ s u r e) (hne : u ≠ t)
    (he : e ≤ s.clock) : Kept lock m₀ s' u r e := by
  induction hm with
  | refl => exact hk
  | tail hm hs ih =>
      exact ih.step (inv hm h) hs (he.trans (clock_le hm)) fun hu => absurd hu hne

/-- Nobody but its holder changes the version of a lock. -/
theorem ver_eq (hne : u ≠ t) {ℓ : L} (ho : s.owner ℓ = some u) : s'.ver ℓ = s.ver ℓ := by
  induction hm with
  | refl => rfl
  | tail hm hs ih =>
      rw [← ih]
      exact hs.ver_eq hne ((owner_iff hm hne ℓ).2 ho)

/-- The committed value of a word whose lock another transaction holds. -/
theorem mem_clock_eq (h : Inv lock m₀ s) (hne : u ≠ t) {a : A} (ho : s.owner (lock a) = some u) :
    s'.mem m₀ s'.clock a = s.mem m₀ s.clock a := by
  induction hm with
  | refl => rfl
  | @tail s₁ s₂ hm hs ih =>
      rw [← ih]
      refine hs.mem_clock_eq (inv hm h) a fun _ => .inl ?_
      rw [(owner_iff hm hne _).2 ho]
      exact fun heq => hne (Option.some.inj heq)

end

end Moves

/-- How the states of a system stand for states of the protocol, and what is known in
them. -/
structure Design (A V L T S X : Type) [DecidableEq A] [DecidableEq L] [DecidableEq T] where
  lock : A → L
  book : S → Book A V L T
  mem : S → A → V
  hist : X → Tx A V
  Shape : S → Prop
  Knows : (A → V) → State A V L T → T → X → Prop
  Pending : X → A → Prop
  stable : ∀ {m₀ : A → V} {v v' : State A V L T} {t u : T} {x : X}, Knows m₀ v t x →
    v.tx t = hist x → Inv lock m₀ v → Moves lock m₀ u v v' → t ≠ u → Knows m₀ v' t x

namespace Design

variable {A V L T S X : Type} [DecidableEq A] [DecidableEq L] [DecidableEq T]
  (D : Design A V L T S X)

def view (s : Threads S X T) : State A V L T := ⟨D.book s.shared, fun t => D.hist (s.tx t)⟩

structure Inv (m₀ : A → V) (s : Threads S X T) : Prop where
  proto : Certify.Inv D.lock m₀ (D.view s)
  shape : D.Shape s.shared
  tx : ∀ t, D.Knows m₀ (D.view s) t (s.tx t)
  mem : ∀ a, D.mem s.shared a = (D.view s).mem m₀ (D.view s).clock a ∨
    ∃ t, D.Pending (s.tx t) a

/-- What a step of `t` to `σ` and `x` has to establish, where `v` is the protocol state
that the step leads to. -/
structure Next (m₀ : A → V) (s : Threads S X T) (t : T) (σ : S) (x : X)
    (v : State A V L T) : Prop where
  moves : Moves D.lock m₀ t (D.view s) v
  shape : D.Shape σ
  tx : D.Knows m₀ v t x
  mem : ∀ a, D.mem σ a = v.mem m₀ v.clock a ∨ D.Pending x a ∨
    (¬D.Pending (s.tx t) a ∧ D.mem σ a = D.mem s.shared a ∧
      v.mem m₀ v.clock a = (D.view s).mem m₀ (D.view s).clock a)

variable {D} {m₀ : A → V} {s : Threads S X T} {t : T} {σ : S} {x : X} {v : State A V L T}

@[simp] theorem view_toBook : (D.view s).toBook = D.book s.shared := rfl

theorem view_put : D.view (s.put t σ x) = (D.view s).put t (D.book σ) (D.hist x) := by
  have htx : (fun u => D.hist ((s.put t σ x).tx u)) =
      Function.update (fun u => D.hist (s.tx u)) t (D.hist x) := by
    funext u
    by_cases hu : u = t
    · subst hu
      simp
    · simp [Threads.put_tx_of_ne hu, hu]
  rw [view, htx]
  rfl

/-- The protocol sees nothing of a thread but its history. -/
theorem put_hist_self : (D.view s).put t (D.book s.shared) (D.hist (s.tx t)) = D.view s :=
  State.put_self _ _

/-- A step keeps the invariant. -/
theorem Next.inv (h : D.Next m₀ s t σ x ((D.view s).put t (D.book σ) (D.hist x)))
    (hinv : D.Inv m₀ s) : D.Inv m₀ (s.put t σ x) := by
  rw [← view_put] at h
  refine ⟨h.moves.inv hinv.proto, h.shape, ?_, fun a => ?_⟩
  · refine Threads.forall_put (P := fun u (y : X) => D.Knows m₀ (D.view (s.put t σ x)) u y)
      h.tx fun u hu => ?_
    exact D.stable (hinv.tx u) rfl hinv.proto h.moves hu
  · rcases h.mem a with hmem | hp | ⟨hnp, hmem, hlog⟩
    · exact .inl hmem
    · exact .inr ⟨t, by rwa [Threads.put_tx_self]⟩
    · rcases hinv.mem a with hold | ⟨u, hu⟩
      · exact .inl (hmem.trans (hold.trans hlog.symm))
      · have hne : u ≠ t := by
          rintro rfl
          exact hnp hu
        exact .inr ⟨u, by rwa [Threads.put_tx_of_ne hne]⟩

end Design

end Certify
