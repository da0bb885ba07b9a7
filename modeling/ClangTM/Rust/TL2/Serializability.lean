import Mathlib.Data.Fintype.Basic
import ClangTM.Rust.TL2.Steps
import ClangTM.Serial.Serializable

/-!
# When the Rust TL2 backend is serializable

`read_word` tests the lock before it loads the version for the first time, and the second
load compares the version only. A writer that takes the lock in between and writes back is
not noticed, since it changes the version no earlier than when it unlocks. A transaction with
writes finds out when it validates under `COMMIT_LOCK`; one without writes is not validated.

In the runs in which the locks of a transaction without writes are free at the versions it
noted when it commits, the committed transactions are a serial run in the order in which they
took `COMMIT_LOCK`.
-/

namespace Rust.TL2

open Serial Transition

section Run

variable {T : Type} [DecidableEq T] {m₀ : Addr → Word} {s : Threads (Shared T) Tx T}

omit [DecidableEq T] in
theorem inv_init (m₀ : Addr → Word) : Inv m₀ (init T m₀) where
  holder t := by simp [init, Pc.holding]
  free := by simp [init]
  shared :=
    { locked := fun ℓ => by simp [init, work, Pc.taken, isLocked]
      nodup := .nil
      pending := fun a ha => by cases ha
      mem := fun a _ => rfl
      turn := rfl
      open_ := fun _ _ => rfl
      legal := fun n w _ hw => by cases hw
      ro := fun r hr => by cases hr }
  tx t := .blank rfl rfl rfl trivial

theorem inv_run (hr : Run step Undisturbed (init T m₀) s) : Inv m₀ s := by
  refine hr.induction_on (inv_init m₀) fun s₁ l s₂ _ h hs hb => ?_
  obtain ⟨σ, x, hnext, rfl⟩ := Threads.step_eq_some hs
  exact (next_good h hnext hb).inv h

/-- In an undisturbed run the committed transactions are a serial run in the order in which
they took `COMMIT_LOCK`, with those without writes in between. It leads to memory at every
cell whose lock is free. -/
theorem serial_in_commit_lock_order (m₀ : Addr → Word) (hr : Run step Undisturbed (init T m₀) s) :
    ∃ m, SerialRun m₀ (schedule s.shared.log s.shared.ro s.shared.turn) m ∧
      ∀ a, isLocked (s.shared.locks (lockIndex a)) = false → s.shared.mem a = m a := by
  have h := (inv_run hr).shared
  refine ⟨memAt m₀ s.shared.log s.shared.turn, schedule_serialRun _ (fun c w hc _ hw => ?_)
    (fun r hr => (h.ro r hr).2), fun a ha => ?_⟩
  · exact h.legal c w hc hw
  · have hsettled : a ∉ (work s).pending := by
      intro hmem
      rw [(h.locked _).2 (h.pending a hmem)] at ha
      cases ha
    have hturn := h.turn
    split at hturn
    · have hnone : s.shared.log s.shared.turn = none := h.open_ _ (by omega)
      rw [hturn, memAt_succ_of_none (hturn ▸ hnone)]
      exact h.mem a hsettled
    · rw [hturn]
      exact h.mem a hsettled

end Run

def begins (t : Fin 2) : List (Fin 2 × TmCall Addr) := [(t, .begin), (t, .tau)]

def reads (t : Fin 2) (a : Addr) : List (Fin 2 × TmCall Addr) :=
  [(t, .read a), (t, .tau), (t, .tau), (t, .tau), (t, .tau)]

def takesCommitLock (t : Fin 2) : List (Fin 2 × TmCall Addr) := [(t, .commit), (t, .tau), (t, .tau)]

def locksTwo (t : Fin 2) : List (Fin 2 × TmCall Addr) := List.replicate 4 (t, .tau)

def unlocksTwo (t : Fin 2) : List (Fin 2 × TmCall Addr) := List.replicate 6 (t, .tau)

/-- A transaction that writes two cells, and then one that reads them. -/
theorem serial_in_commit_lock_order_two : ∃ s : Threads (Shared (Fin 2)) Tx (Fin 2),
    Run step Undisturbed (init (Fin 2) fun _ => 0) s ∧
      s.shared.log 1 = some [.write 16 1, .write 8 1] ∧
      s.shared.ro = [(1, [.read 8 1, .read 16 1])] ∧
      ∃ m, SerialRun (fun _ => 0) (schedule s.shared.log s.shared.ro s.shared.turn) m := by
  obtain ⟨s, hr, hlog, hro⟩ :
      ∃ s, Run step Undisturbed (init (Fin 2) fun _ => 0) s ∧
        s.shared.log 1 = some [.write 16 1, .write 8 1] ∧
        s.shared.ro = [(1, [.read 8 1, .read 16 1])] :=
    exists_run_of_exec (.flatten [begins 0, [(0, .write 8 1), (0, .write 16 1)], takesCommitLock 0,
      locksTwo 0, [(0, .write 16 1), (0, .write 8 1)], unlocksTwo 0, begins 1, reads 1 16,
      reads 1 8, [(1, .commit)]]) (by decide +kernel)
  obtain ⟨m, hserial, -⟩ := serial_in_commit_lock_order _ hr
  exact ⟨s, hr, hlog, hro, m, hserial⟩

/-- Thread 1 reads 16, finds the lock of 8 free and loads its version; thread 0 takes both
locks and writes 8 back; thread 1 loads the new value of 8, finds the version as it was, and
commits. -/
theorem not_serializable_of_torn_read : ∃ s : Threads (Shared (Fin 2)) Tx (Fin 2),
    Run step anyStep (init (Fin 2) fun _ => 0) s ∧
      (s.tx 0).committed = some true ∧ (s.tx 1).committed = some true ∧
      ¬Serializable (fun _ => 0) (schedule s.shared.log s.shared.ro s.shared.turn) := by
  obtain ⟨s, hr, h₀, h₁, hsched⟩ :
      ∃ s, Run step anyStep (init (Fin 2) fun _ => 0) s ∧ (s.tx 0).committed = some true ∧
        (s.tx 1).committed = some true ∧
        schedule s.shared.log s.shared.ro s.shared.turn =
          [[.write 16 1, .write 8 1], [.read 8 1, .read 16 0]] :=
    exists_run_of_exec (.flatten [begins 1, reads 1 16, [(1, .read 8), (1, .tau), (1, .tau)],
      begins 0, [(0, .write 8 1), (0, .write 16 1)], takesCommitLock 0, locksTwo 0,
      [(0, .write 8 1)], [(1, .tau), (1, .tau), (1, .commit)], [(0, .write 16 1)], unlocksTwo 0])
      (by decide +kernel)
  refine ⟨s, hr, h₀, h₁, ?_⟩
  rw [hsched]
  exact not_serializable_of_torn (m := fun _ => (0 : Word)) (a := (8 : Addr)) (b := 16)
    (v := (1 : Word)) (w := 1) (by decide) (by decide)

end Rust.TL2
