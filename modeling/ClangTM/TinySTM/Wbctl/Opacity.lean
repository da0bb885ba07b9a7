import ClangTM.TinySTM.Wbctl.Steps

/-!
# WBCTL is opaque

In every run in which the clock stays below its bound, what a live transaction has
read is the committed memory at `end_version`, and the committed transactions are a
serial run in the order of their commit versions. The committed memory at a clock
value is `memAt`, computed from the log; while a committed transaction still writes
back, memory lags behind it at the words of that transaction only.
-/

namespace TinySTM.Wbctl

open Serial Transition

variable {m₀ : WordAddr → Word} {s : State Tx}

/-- The memory that the transactions other than `t` have committed up to the clock
value `e`. -/
def snapshot (m₀ : WordAddr → Word) (s : State Tx) (t : TxId) (e : ℕ) : WordAddr → Word :=
  memAt m₀ (fun c => if (s.tx t).hist.cv = some c then none else s.shared.log c) e

theorem Inv.snapshot_eq (h : Inv true m₀ s) {t : TxId} (hd : (s.tx t).hist.done = false) (e : ℕ) :
    snapshot m₀ s t e = memAt m₀ s.shared.log e :=
  congrFun (h.proto.memWithout_eq hd) e

theorem Inv.legal_snapshot (h : Inv true m₀ s) (t : TxId) :
    Legal (snapshot m₀ s t (s.tx t).endVersion) (s.tx t).hist.trace := by
  have hcore := h.core t
  have hkept : ∀ r ∈ (s.tx t).hist.reads,
      VersionLock.Kept lockOf m₀ (s.view Tx.hist) t r (s.tx t).endVersion := by
    intro r hr
    cases hd : (s.tx t).hist.done with
    | true => exact hcore.kept rfl hd r hr
    | false =>
        obtain ⟨hle, hsafe⟩ := hcore.safe rfl hd r hr
        exact hsafe.kept h.proto hd hr hle
  refine (legal_iff _ _).2 ⟨h.proto.proto.self t, fun p hp => ?_⟩
  obtain ⟨r, hr, haddr, hval⟩ := h.proto.covered t p hp
  rw [← haddr, ← hval]
  exact (hkept r hr).value

/-- Where memory is not the committed memory, a committed transaction is going to
write the committed value. -/
theorem Inv.mem_or_pending {all : Bool} (h : Inv all m₀ s) (a : WordAddr) :
    s.shared.mem a = memAt m₀ s.shared.log s.shared.gClock a ∨
      ∃ t c rest, (s.tx t).pc = .writeBack c rest ∧
        (a, memAt m₀ s.shared.log s.shared.gClock a) ∈ rest := by
  refine (h.mem a).imp_right ?_
  rintro ⟨t, c, rest, w, hpc, hw⟩
  obtain ⟨-, -, -, hpending⟩ := h.at hpc
  obtain rfl : memAt m₀ s.shared.log s.shared.gClock a = w := (hpending (a, w) hw).2
  exact ⟨t, c, rest, hpc, hw⟩

def readOnce (t : TxId) (a : WordAddr) : List (TxId × TxCall) := (t, .read a) :: taus t 3

def writeOnce (t : TxId) (a : WordAddr) (v : Word) : List (TxId × TxCall) :=
  (t, .begin) :: (t, .tau) :: (t, .write a v) :: (t, .tau) :: (t, .tau) :: (t, .commit) ::
    taus t 15

end TinySTM.Wbctl
