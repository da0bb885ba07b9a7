import Mathlib.Algebra.Order.Group.Nat
import Mathlib.Tactic.Common

/-!
# Tickets that are served in order

Threads take tickets from a counter. A ticket is live from the moment it is taken until its
thread gives it up or is served, and a thread is served only when no smaller ticket is live.
`Settled n` says that no ticket below `n` is live or still to be taken; once this is so it
stays so, whatever the threads do, and the tickets are served in increasing order.
-/

namespace Ticket

variable {T : Type*}

/-- The next ticket, the live ticket of every thread and the tickets served, newest first. -/
structure Book (T : Type*) where
  next : ℕ
  live : T → Option ℕ
  served : List ℕ

namespace Book

/-- All tickets below `n` are taken and none of them is live. -/
def Settled (b : Book T) (n : ℕ) : Prop :=
  n ≤ b.next ∧ ∀ t m, b.live t = some m → n ≤ m

/-- The invariant: no two threads have the same ticket, everything below a ticket that was
served is settled, and the tickets were served in increasing order. -/
structure Inv (b : Book T) : Prop where
  lt : ∀ t n, b.live t = some n → n < b.next
  inj : ∀ t u n, b.live t = some n → b.live u = some n → t = u
  served : ∀ n ∈ b.served, b.Settled (n + 1)
  sorted : b.served.Pairwise (· > ·)

/-- What thread `t` can do: keep its ticket or give it up, take the next ticket, or be
served. -/
inductive Move (t : T) (b b' : Book T) : Prop
  | keep (others : ∀ u, u ≠ t → b'.live u = b.live u)
      (own : b'.live t = b.live t ∨ b'.live t = none) (next : b'.next = b.next)
      (served : b'.served = b.served)
  | claim (others : ∀ u, u ≠ t → b'.live u = b.live u) (own : b'.live t = some b.next)
      (next : b'.next = b.next + 1) (served : b'.served = b.served)
  | serve (n : ℕ) (others : ∀ u, u ≠ t → b'.live u = b.live u) (mine : b.live t = some n)
      (settled : b.Settled n) (own : b'.live t = none) (next : b'.next = b.next)
      (served : b'.served = n :: b.served)

variable {b b' : Book T} {t : T} {n : ℕ}

theorem Settled.mono {m : ℕ} (h : b.Settled n) (hm : m ≤ n) : b.Settled m :=
  ⟨hm.trans h.1, fun t k hk => hm.trans (h.2 t k hk)⟩

/-- The ticket of a thread is not below what is settled. -/
theorem Settled.le (h : b.Settled n) {m : ℕ} (hm : b.live t = some m) : n ≤ m := h.2 t m hm

theorem Settled.succ (h : b.Settled n) (hn : n < b.next) (hdead : ∀ t, b.live t ≠ some n) :
    b.Settled (n + 1) := by
  refine ⟨hn, fun t m hm => ?_⟩
  have hle := h.le hm
  have hne : n ≠ m := fun heq => hdead t (heq ▸ hm)
  omega

/-- A ticket that is live after a move was live before it, or has just been taken. -/
theorem Move.live_cases (h : Move t b b') {u : T} {m : ℕ} (hm : b'.live u = some m) :
    b.live u = some m ∨ (u = t ∧ m = b.next ∧ b'.next = b.next + 1) := by
  by_cases hu : u = t
  · subst hu
    cases h with
    | keep _ own =>
        rcases own with own | own
        · exact .inl (own ▸ hm)
        · rw [own] at hm
          cases hm
    | claim _ own next =>
        rw [own] at hm
        exact .inr ⟨rfl, (Option.some.inj hm).symm, next⟩
    | serve _ _ _ _ own =>
        rw [own] at hm
        cases hm
  · cases h with
    | keep others => exact .inl (others u hu ▸ hm)
    | claim others => exact .inl (others u hu ▸ hm)
    | serve _ others => exact .inl (others u hu ▸ hm)

theorem Move.le_next (h : Move t b b') : b.next ≤ b'.next := by
  cases h with
  | keep _ _ next => omega
  | claim _ _ next => omega
  | serve _ _ _ _ _ next => omega

/-- What is settled stays settled. -/
theorem Settled.move (hs : b.Settled n) (h : Move t b b') : b'.Settled n := by
  refine ⟨hs.1.trans h.le_next, fun u m hm => ?_⟩
  rcases h.live_cases hm with hold | ⟨-, rfl, -⟩
  · exact hs.le hold
  · exact hs.1

theorem Inv.move (h : b.Inv) (hm : Move t b b') : b'.Inv := by
  have hserved : ∀ n ∈ b.served, b'.Settled (n + 1) := fun n hn => (h.served n hn).move hm
  refine ⟨fun u n hn => ?_, fun u v n hu hv => ?_, ?_, ?_⟩
  · rcases hm.live_cases hn with hold | ⟨-, rfl, hnext⟩
    · exact (h.lt u n hold).trans_le hm.le_next
    · omega
  · rcases hm.live_cases hu with hu' | ⟨rfl, rfl, -⟩
    · rcases hm.live_cases hv with hv' | ⟨rfl, rfl, -⟩
      · exact h.inj u v n hu' hv'
      · exact absurd (h.lt u _ hu') (lt_irrefl _)
    · rcases hm.live_cases hv with hv' | ⟨rfl, -, -⟩
      · exact absurd (h.lt v _ hv') (lt_irrefl _)
      · rfl
  · cases hm with
    | keep _ _ _ served => rwa [served]
    | claim _ _ _ served => rwa [served]
    | serve n others mine settled own next served =>
        rw [served]
        intro m hmem
        rcases List.mem_cons.1 hmem with rfl | hmem
        · have hmove := settled.move (.serve m others mine settled own next served)
          refine hmove.succ (next ▸ h.lt t m mine) fun u hu => ?_
          by_cases hut : u = t
          · rw [hut, own] at hu
            cases hu
          · exact hut (h.inj u t m (others u hut ▸ hu) mine)
        · exact hserved m hmem
  · cases hm with
    | keep _ _ _ served =>
        rw [served]
        exact h.sorted
    | claim _ _ _ served =>
        rw [served]
        exact h.sorted
    | serve n _ mine _ _ _ served =>
        rw [served]
        exact List.pairwise_cons.2 ⟨fun m hmem => (h.served m hmem).le mine, h.sorted⟩

end Book

end Ticket
