import Mathlib.Data.Fintype.Basic
import ClangTM.TL2.Steps

/-!
# The update transactions of TL2 are serializable

In every run in which the clock stays below `2 ^ 63`, the transactions that committed with
a non-empty write set are a serial run in the order of their commit versions, and a commit
that failed has given back the guards it took, with the versions they had, and has written
nothing.

The bound cannot be left out. A guard keeps the low 63 bits of a commit version, so that
after `2 ^ 63` increments of the clock a guard has the version it had at the start.
-/

namespace TL2

open Serial Transition Certify

section Run

variable {T : Type} [DecidableEq T] {m₀ : CellAddr → Word} {s : Threads (Shared T) Tx T}

def Bounded (_ : Threads (Shared T) Tx T) (_ : T × TmCall CellAddr)
    (s' : Threads (Shared T) Tx T) : Prop :=
  s'.shared.gClock.toNat < 2 ^ 63

instance (s : Threads (Shared T) Tx T) (l : T × TmCall CellAddr)
    (s' : Threads (Shared T) Tx T) : Decidable (Bounded s l s') :=
  inferInstanceAs (Decidable (_ < _))

theorem inv_init (m₀ : CellAddr → Word) : (backend T).Inv m₀ (init T m₀) where
  proto := .init (fun _ => Nat.zero_le _) (fun _ => rfl) rfl fun _ => rfl
  shape := ⟨⟨fun _ => by simp [init, backend, Book.empty, isLocked_eq],
    fun _ => by simp [init, backend, Book.empty, guardVersion]⟩,
    rfl, (by decide : (1 : Word).toNat < 2 ^ 63), fun _ => rfl⟩
  tx t := ⟨⟨fun ℓ => by simp [init, Design.view, Phased.design, Backend.phased, backend, Tx.loc,
    held, Book.empty], .nil, rfl, rfl, rfl⟩, ⟨fun hp => absurd rfl hp, trivial⟩,
    .idle rfl rfl (by simp [init])⟩
  mem _ := .inl rfl

theorem inv_run (hr : Run step Bounded (init T m₀) s) : (backend T).Inv m₀ s := by
  refine hr.induction_on (inv_init m₀) fun s₁ l s₂ _ h hs hb => ?_
  obtain ⟨σ, x, hnext, rfl⟩ := Threads.step_eq_some hs
  exact (next_good h hnext hb).inv h

/-- The update transactions that have committed are a serial run in the order of their
commit versions, which leads to memory at every word whose guard is not locked; and a
commit that failed has unlocked exactly the guards it had locked, at the versions it found,
and has not stored to memory. -/
theorem update_serial (m₀ : CellAddr → Word) (hr : Run step Bounded (init T m₀) s) :
    (∃ m, SerialRun m₀ (schedule s.shared.book.log [] s.shared.book.clock) m ∧
      ∀ a, isLocked (s.shared.gGuards (getGuardIdx a)) = false → s.shared.mem a = m a) ∧
    ∀ t, (s.tx t).committed = some false →
      (s.tx t).given = (s.tx t).taken ∧ (s.tx t).stores = 0 := by
  have h := inv_run hr
  exact ⟨Backend.serial h, fun t => (h.tx t).2.2.account.failed⟩

end Run

variable {s : Threads (Shared (Fin 2)) Tx (Fin 2)}

def setFirst (t : Fin 2) : List (Fin 2 × TmCall CellAddr) :=
  [(t, .begin), (t, .tau), (t, .write firstCell 1), (t, .commit), (t, .tau), (t, .tau),
    (t, .tau), (t, .tau), (t, .tau)]

def readFirst (t : Fin 2) : List (Fin 2 × TmCall CellAddr) :=
  [(t, .begin), (t, .tau), (t, .read firstCell), (t, .tau), (t, .tau)]

def commitSecond (t : Fin 2) : List (Fin 2 × TmCall CellAddr) :=
  [(t, .write secondCell 1), (t, .commit), (t, .tau), (t, .tau), (t, .tau), (t, .tau)]

/-- A transaction whose read has been overwritten gives its guard back. -/
theorem update_serial_failed : ∃ s : Threads (Shared (Fin 2)) Tx (Fin 2),
    Run step Bounded (init (Fin 2) fun _ => 0) s ∧
      s.shared.book.log 2 = some [.write firstCell 1] ∧
      (s.tx 0).committed = some false ∧ (s.tx 0).taken = [(getGuardIdx secondCell, 0)] ∧
      (s.tx 0).given = (s.tx 0).taken ∧
      ∃ m, SerialRun (fun _ => 0) (schedule s.shared.book.log [] s.shared.book.clock) m := by
  obtain ⟨s, hr, hlog, hfailed, htaken⟩ :
      ∃ s, Run step Bounded (init (Fin 2) fun _ => 0) s ∧
        s.shared.book.log 2 = some [.write firstCell 1] ∧ (s.tx 0).committed = some false ∧
        (s.tx 0).taken = [(getGuardIdx secondCell, 0)] :=
    exists_run_of_exec (.flatten [readFirst 0, setFirst 1, commitSecond 0, [(0, .tau)]])
      (by decide +kernel)
  obtain ⟨⟨m, hserial, -⟩, hgiven⟩ := update_serial _ hr
  exact ⟨s, hr, hlog, hfailed, htaken, (hgiven 0 hfailed).1, m, hserial⟩

/-- The transaction of thread 1 from any state in which the guard of the first cell is
not locked. -/
theorem exec_setFirst (hpc : (s.tx 1).pc = .out)
    (hfree : isLocked (s.shared.gGuards (getGuardIdx firstCell)) = false) :
    ∃ s', exec step anyStep s (setFirst 1) = some s' ∧ (s'.tx 1).pc = .out ∧
      s'.tx 0 = s.tx 0 ∧ s'.shared.gClock = s.shared.gClock + 1 ∧
      s'.shared.gGuards = Function.update s.shared.gGuards (getGuardIdx firstCell)
        (withVersion (s.shared.gClock + 1)) ∧
      s'.shared.book.clock = s.shared.book.clock + 1 ∧
      s'.shared.book.log =
        enter s.shared.book.log (s.shared.book.clock + 1) [.write firstCell 1] := by
  have hbegin : next 1 s.shared (s.tx 1) .begin =
      some (s.shared, { s.tx 1 with pc := .beginClock }) := by
    simp [next, hpc]
  let x : Tx :=
    { pc := .acquire (firstCell, 1) [] [], active := true, startVersion := s.shared.gClock
      commitVersion := (s.tx 1).commitVersion, writeSet := [(firstCell, 1)]
      bloomFilter := bloomSet 0 firstCell, hist := { trace := [.write firstCell 1] } }
  let g := s.shared.gGuards (getGuardIdx firstCell)
  have hload : next 1 s.shared x .tau =
      some (s.shared, { x with pc := .acquireCas g (firstCell, 1) [] [] }) := by
    simp [next, x, g, hfree]
  have hcas : acquireCas 1 s.shared { x with pc := .acquireCas g (firstCell, 1) [] [] }
      g (firstCell, 1) [] [] =
      (s.shared.setGuard (getGuardIdx firstCell) (g ||| lockMask)
        (s.shared.book.acquire (getGuardIdx firstCell) 1),
        { x with
          pc := .tick [getGuardIdx firstCell]
          taken := [(getGuardIdx firstCell, guardVersion g)] }) :=
    if_pos rfl
  rw [setFirst, step, Threads.exec_cons_of_next hbegin,
    Threads.exec_put (by rfl),
    Threads.exec_put (by rfl),
    Threads.exec_put (σ := s.shared) (x := x) (by rfl),
    Threads.exec_put (by exact hload),
    Threads.exec_put (by exact congrArg some hcas),
    Threads.exec_put (by rfl), Threads.exec_put (by rfl), Threads.exec_put (by rfl), exec_nil]
  refine ⟨_, rfl, ?_, ?_, rfl, ?_, rfl, rfl⟩
  · rw [Threads.put_tx_self]
    rfl
  · exact Threads.put_tx_of_ne (by decide)
  · exact Function.update_idem _ _ _

/-- Any number of these transactions, one after another: the guard of the first cell has
the low bits of the clock, and thread 0 does not move. -/
theorem run_setFirst (hpc : (s.tx 1).pc = .out)
    (hfree : isLocked (s.shared.gGuards (getGuardIdx firstCell)) = false) (n : ℕ) :
    ∃ s', Run step anyStep s s' ∧ (s'.tx 1).pc = .out ∧ s'.tx 0 = s.tx 0 ∧
      s'.shared.gClock = s.shared.gClock + BitVec.ofNat 64 (n + 1) ∧
      s'.shared.gGuards = Function.update s.shared.gGuards (getGuardIdx firstCell)
        (withVersion s'.shared.gClock) ∧
      s'.shared.book.clock = s.shared.book.clock + (n + 1) ∧
      s'.shared.book.log s'.shared.book.clock = some [.write firstCell 1] := by
  induction n with
  | zero =>
      obtain ⟨s', hs, hpc', htx, hclock, hguards, hbook, hlog⟩ := exec_setFirst hpc hfree
      refine ⟨s', run_of_exec hs, hpc', htx, hclock, ?_, hbook, ?_⟩
      · rw [hguards, hclock]
      · rw [hlog, hbook, enter_self]
  | succ n ih =>
      obtain ⟨s₁, hr, hpc₁, htx₁, hclock₁, hguards₁, hbook₁, -⟩ := ih
      have hfree₁ : isLocked (s₁.shared.gGuards (getGuardIdx firstCell)) = false := by
        rw [hguards₁, Function.update_self, isLocked_withVersion]
      obtain ⟨s', hs, hpc', htx, hclock, hguards, hbook, hlog⟩ := exec_setFirst hpc₁ hfree₁
      refine ⟨s', hr.trans (run_of_exec hs), hpc', htx.trans htx₁, ?_, ?_, ?_, ?_⟩
      · rw [hclock, hclock₁, BitVec.add_assoc, show (1 : Word) = BitVec.ofNat 64 1 from rfl,
          ← BitVec.ofNat_add]
      · rw [hguards, hguards₁, Function.update_idem, hclock]
      · rw [hbook, hbook₁, Nat.add_assoc]
      · rw [hlog, hbook, enter_self]

theorem exec_commitSecond
    (hx : s.tx 0 =
      { pc := .body, active := true, startVersion := 1, readSet := [⟨firstCell, 0, false⟩]
        hist := { reads := [⟨firstCell, 0, 0⟩], trace := [.read firstCell 0] } })
    (hguards : s.shared.gGuards = fun _ => 0) :
    ∃ s', exec step anyStep s (commitSecond 0) = some s' ∧
      s'.shared.book.clock = s.shared.book.clock + 1 ∧
      s'.shared.book.log = enter s.shared.book.log (s.shared.book.clock + 1)
        [.write secondCell 1, .read firstCell 0] := by
  obtain ⟨⟨clock, guards, mem, book⟩, tx⟩ := s
  obtain rfl : guards = fun _ => 0 := hguards
  let σ : Shared (Fin 2) := ⟨clock, fun _ => 0, mem, book⟩
  let x : Tx :=
    { pc := .acquire (secondCell, 1) [] [], active := true, startVersion := 1
      writeSet := [(secondCell, 1)], readSet := [⟨firstCell, 0, false⟩]
      bloomFilter := bloomSet 0 secondCell
      hist :=
        { reads := [⟨firstCell, 0, 0⟩], trace := [.write secondCell 1, .read firstCell 0] } }
  have hload : next 0 σ x .tau =
      some (σ, { x with pc := .acquireCas 0 (secondCell, 1) [] [] }) := by
    simp [next, x, σ, isLocked_eq]
  have hcas : acquireCas 0 σ { x with pc := .acquireCas 0 (secondCell, 1) [] [] }
      0 (secondCell, 1) [] [] =
      (σ.setGuard (getGuardIdx secondCell) (0 ||| lockMask)
        (book.acquire (getGuardIdx secondCell) 0),
        { x with
          pc := .tick [getGuardIdx secondCell]
          taken := [(getGuardIdx secondCell, guardVersion 0)] }) :=
    rfl
  let y : Tx :=
    { x with
      pc := .validate [⟨firstCell, 0, false⟩] [getGuardIdx secondCell]
      commitVersion := clock + 1, hist.cv := some (book.clock + 1)
      taken := [(getGuardIdx secondCell, guardVersion 0)] }
  have hvalid : ReadSetEntry.stale ⟨firstCell, 0, false⟩ [getGuardIdx secondCell]
      (Function.update (fun _ => (0 : Word)) (getGuardIdx secondCell) (0 ||| lockMask)
        (getGuardIdx firstCell)) = false := by
    decide
  rw [commitSecond, step, Threads.exec_cons_of_next (by rw [hx]; rfl),
    Threads.exec_put (σ := σ) (x := x) (by rfl),
    Threads.exec_put (by exact hload),
    Threads.exec_put (by exact congrArg some hcas),
    Threads.exec_put (x := y) (by rfl),
    Threads.exec_cons_of_next (by
      rw [Threads.put_tx_self]
      exact congrArg some (if_neg (Bool.eq_false_iff.1 hvalid))), exec_nil]
  exact ⟨_, rfl, rfl, rfl⟩

/-- The version of a guard wraps: after `2 ^ 63 - 1` writers it is 0 again, and a
transaction that read before them passes its validation. -/
theorem not_serial_after_version_wrap : ∃ s : Threads (Shared (Fin 2)) Tx (Fin 2),
    Run step anyStep (init (Fin 2) fun _ => 0) s ∧
      ¬∃ m, SerialRun (fun _ => 0) (schedule s.shared.book.log [] s.shared.book.clock) m := by
  obtain ⟨s₁, h₁, hpc₁, hclock₁, hguards₁, hbook₁, hx₁⟩ :
      ∃ s₁, exec step anyStep (init (Fin 2) fun _ => 0) (readFirst 0) = some s₁ ∧
        (s₁.tx 1).pc = .out ∧ s₁.shared.gClock = 1 ∧ s₁.shared.gGuards = (fun _ => 0) ∧
        s₁.shared.book.clock = 1 ∧
        s₁.tx 0 =
          { pc := .body, active := true, startVersion := 1
            readSet := [⟨firstCell, 0, false⟩]
            hist := { reads := [⟨firstCell, 0, 0⟩], trace := [.read firstCell 0] } } :=
    ⟨_, rfl, rfl, rfl, rfl, rfl, rfl⟩
  have hfree : isLocked (s₁.shared.gGuards (getGuardIdx firstCell)) = false := by
    rw [hguards₁]
    rfl
  obtain ⟨s₂, h₂, -, hx₂, hclock₂, hguards₂, hbook₂, hlog₂⟩ :=
    run_setFirst hpc₁ hfree (2 ^ 63 - 2)
  have hzero : withVersion s₂.shared.gClock = 0 := by
    simp [hclock₂, hclock₁, withVersion]
  rw [hguards₁, hzero, Function.update_eq_self_iff.2 rfl] at hguards₂
  obtain ⟨s₃, h₃, hbook₃, hlog₃⟩ := exec_commitSecond (hx₂.trans hx₁) hguards₂
  refine ⟨s₃, ((run_of_exec h₁).trans h₂).trans (run_of_exec h₃), ?_⟩
  have hset : s₃.shared.book.log s₂.shared.book.clock = some [.write firstCell 1] := by
    rw [hlog₃, enter_of_ne _ (by omega), hlog₂]
  have hread : s₃.shared.book.log (s₂.shared.book.clock + 1) =
      some [.write secondCell 1, .read firstCell 0] := by
    rw [hlog₃, enter_self]
  have hne : (1 : Word) ≠ 0 := by decide
  rw [hbook₃]
  exact not_serialRun_of_stale hne (by omega) hset hread

end TL2
