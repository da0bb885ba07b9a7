import Mathlib.Data.Fintype.Basic
import ClangTM.Rust.TinySTM.Wbctl.Steps
import ClangTM.Serial.Serializable

/-!
# When WBCTL is serializable

`validate_read_set` compares versions and not lock bits, and a transaction without writes is
not validated at all. Two transactions that each read what the other writes can therefore
hold their locks, find each other's versions unchanged, and both commit.

In the runs in which every validation load finds the lock free or the transaction's own, and
in which the locks of a transaction without writes are still free at the versions it noted
when it commits, the committed transactions have a serial order.
-/

namespace Rust.TinySTM.Wbctl

open Serial Transition Certify

section Run

variable {T : Type} [DecidableEq T] {m₀ : Addr → Word} {s : Threads (Cells T) (Tx Addr) T}

theorem inv_init (m₀ : Addr → Word) : (phased T).design.Inv m₀ (init Addr T m₀) where
  proto := .init (fun _ => Nat.zero_le _) (fun _ => rfl) rfl fun _ => rfl
  shape := ⟨fun _ => by simp [init, Book.empty, isLocked],
      fun _ => by simp [init, Book.empty, version]⟩
  tx t := ⟨⟨fun ℓ => by simp [init, Design.view, Phased.design, phased, loc, held, Book.empty],
    .nil, rfl, rfl, rfl⟩, rfl, trivial⟩
  mem _ := .inl rfl

theorem inv_run (hr : Run (step .wbctl) Undisturbed (init Addr T m₀) s) :
    (phased T).design.Inv m₀ s := by
  refine hr.induction_on (inv_init m₀) fun s₁ l s₂ _ h hs hb => ?_
  obtain ⟨σ, x, hnext, rfl⟩ := Threads.step_eq_some hs
  exact (next_good h hnext hb).inv h

/-- In an undisturbed run the committed transactions, those without writes included, are a
serial run, which leads to memory at every cell whose lock is free. -/
theorem serial_of_undisturbed (m₀ : Addr → Word)
    (hr : Run (step .wbctl) Undisturbed (init Addr T m₀) s) :
    ∃ m, SerialRun m₀ (schedule s.shared.book.log s.shared.book.ro s.shared.book.clock) m ∧
      ∀ a, isLocked (s.shared.locks (lockOf a)) = false → s.shared.mem a = m a := by
  have h := inv_run hr
  refine ⟨_, h.proto.serialRun s.shared.book.clock, fun a ha => ?_⟩
  refine Phased.mem_of_settled h fun u hu => ?_
  have hlocked := (h.shape.locked (lockOf a)).2 (by
    rw [show s.shared.book.owner (lockOf a) = some u from hu]
    simp)
  simp [ha] at hlocked

end Run

def beginRead (t : Fin 2) (a : Addr) : List (Fin 2 × TmCall Addr) :=
  [(t, .begin), (t, .tau), (t, .read a), (t, .tau), (t, .tau), (t, .tau), (t, .tau)]

def thenWrite (t : Fin 2) (a : Addr) (v : Word) : List (Fin 2 × TmCall Addr) :=
  [(t, .write a v), (t, .tau), (t, .tau)]

def thenLock (t : Fin 2) : List (Fin 2 × TmCall Addr) :=
  [(t, .commit), (t, .tau), (t, .tau), (t, .tau)]

def thenValidate (t : Fin 2) : List (Fin 2 × TmCall Addr) := [(t, .tau), (t, .tau)]

def thenRelease (t : Fin 2) : List (Fin 2 × TmCall Addr) := [(t, .tau), (t, .tau), (t, .tau)]

/-- A transaction that reads 8 and writes 16, and then one that only reads. -/
theorem serial_of_undisturbed_two : ∃ s : Threads (Cells (Fin 2)) (Tx Addr) (Fin 2),
    Run (step .wbctl) Undisturbed (init Addr (Fin 2) fun _ => 0) s ∧
      s.shared.book.log 1 = some [.write 16 1, .read 8 0] ∧
      s.shared.book.ro = [(1, [.read 16 1])] ∧
      ∃ m, SerialRun (fun _ => 0)
        (schedule s.shared.book.log s.shared.book.ro s.shared.book.clock) m := by
  obtain ⟨s, hr, hlog, hro⟩ :
      ∃ s, Run (step .wbctl) Undisturbed (init Addr (Fin 2) fun _ => 0) s ∧
        s.shared.book.log 1 = some [.write 16 1, .read 8 0] ∧
        s.shared.book.ro = [(1, [.read 16 1])] :=
    exists_run_of_exec (.flatten [beginRead 0 8, thenWrite 0 16 1, thenLock 0, thenValidate 0,
      thenRelease 0, beginRead 1 16, [(1, .commit)]]) (by decide +kernel)
  obtain ⟨m, hserial, -⟩ := serial_of_undisturbed _ hr
  exact ⟨s, hr, hlog, hro, m, hserial⟩

/-- Thread 0 reads 8 and writes 16, thread 1 reads 16 and writes 8. Both hold their lock
when they validate, and both commit. -/
theorem not_serializable_of_write_skew : ∃ s : Threads (Cells (Fin 2)) (Tx Addr) (Fin 2),
    Run (step .wbctl) anyStep (init Addr (Fin 2) fun _ => 0) s ∧
      (s.tx 0).committed = some true ∧ (s.tx 1).committed = some true ∧
      ¬Serializable (fun _ => 0)
        (schedule s.shared.book.log s.shared.book.ro s.shared.book.clock) := by
  obtain ⟨s, hr, h₀, h₁, hsched⟩ :
      ∃ s, Run (step .wbctl) anyStep (init Addr (Fin 2) fun _ => 0) s ∧
        (s.tx 0).committed = some true ∧ (s.tx 1).committed = some true ∧
        schedule s.shared.book.log s.shared.book.ro s.shared.book.clock =
          [[.write 16 1, .read 8 0], [.write 8 1, .read 16 0]] :=
    exists_run_of_exec (.flatten [beginRead 0 8, beginRead 1 16, thenWrite 0 16 1, thenWrite 1 8 1,
      thenLock 0, thenLock 1, thenValidate 0, thenValidate 1, thenRelease 0, thenRelease 1])
      (by decide +kernel)
  refine ⟨s, hr, h₀, h₁, ?_⟩
  rw [hsched]
  exact not_serializable_of_skew (m := fun _ => (0 : Word)) (a := (8 : Addr)) (b := 16)
    (v := (1 : Word)) (w := 1) (by decide) (by decide)

end Rust.TinySTM.Wbctl
