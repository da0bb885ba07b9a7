import ClangTM.Serial.Stamps
import ClangTM.Simulator.TmModel.LockWord

/-!
# The invariant of the TM model

Between calls every lock is free, and its version is the stamp that the log of committed
transactions gives it. What a transaction has read is the stamps at its `end_version`: a read
is recorded only when the version found is not above `end_version`, so that it has been the
version since then, and an extension of the snapshot finds no version above the one recorded,
so that none has changed.
-/

namespace Simulator.TmModel

open Serial LockWord

variable {s s' : TmModel} {t : Tid}

abbrev clock (s : TmModel) : ℕ := s.globalClock.toNat

abbrev versions (s : TmModel) (li : LockIdx) : ℕ := (version (s.locks li)).toNat

@[simp] theorem setTx_tx_self (s : TmModel) (t : Tid) (x : TxState) :
    (s.setTx t x).txStates t = x :=
  Function.update_self _ _ _

/-- What a transaction has read is the stamps at its `end_version`. -/
structure Snapshot (log : ℕ → Option (Trace LockIdx ℕ)) (now : ℕ) (x : TxState) : Prop where
  held : x.locksHeld = []
  start_le : x.startVersion.toNat ≤ x.endVersion.toNat
  end_le : x.endVersion.toNat ≤ now
  reads : ∀ r ∈ x.readSet,
    stampsAt log x.endVersion.toNat (addrToLockIdx r.addr) = r.observedVersion.toNat

structure Core (s : TmModel) : Prop where
  lt : s.clock < 2 ^ 46
  free : ∀ li, isLocked (s.locks li) = false
  ver : ∀ li, s.versions li = stampsAt s.log s.clock li
  stamped : Stamped s.log
  logLe : ∀ c w, s.log c = some w → 0 < c ∧ c ≤ s.clock
  logLegal : ∀ c w, s.log c = some w → Legal (stampsAt s.log (c - 1)) w
  roLegal : ∀ r ∈ s.ro, r.1 ≤ s.clock ∧ Legal (stampsAt s.log r.1) r.2 ∧
    ∀ a, lastWrite r.2 a = none
  tx : ∀ t, Snapshot s.log s.clock (s.txStates t)

structure Grows (s s' : TmModel) : Prop where
  le : s.clock ≤ s'.clock
  le_succ : s'.clock ≤ s.clock + 1
  past : s'.past = s.past
  stamps : ∀ n ≤ s.clock, stampsAt s'.log n = stampsAt s.log n

def Good (s s' : TmModel) : Prop := Core s' ∧ Grows s s'

theorem Grows.of_eq (hclock : s'.globalClock = s.globalClock) (hpast : s'.past = s.past)
    (hlog : s'.log = s.log) : Grows s s' where
  le := (congrArg BitVec.toNat hclock).ge
  le_succ := (congrArg BitVec.toNat hclock).le.trans (Nat.le_succ _)
  past := hpast
  stamps n _ := by rw [hlog]

section Reads

variable (h : Core s)
include h

/-- A lock whose version is not above a clock value has had that version then. -/
theorem Core.stampsAt_of_version_le {li : LockIdx} {e : Word} (hle : e.toNat ≤ s.clock)
    (hver : ¬e < version (s.locks li)) : stampsAt s.log e.toNat li = s.versions li := by
  rw [h.ver li]
  refine h.stamped.stampsAt_eq_of_le ?_ hle
  rw [← h.ver li]
  exact Nat.not_lt.1 hver

/-- A recorded read whose lock has no larger version is a read of the present versions. -/
theorem Core.version_eq {x : TxState} (hx : Snapshot s.log s.clock x) {r : ReadEntry}
    (hr : r ∈ x.readSet) (hle : ¬r.observedVersion < version (s.locks (addrToLockIdx r.addr))) :
    stampsAt s.log s.clock (addrToLockIdx r.addr) = r.observedVersion.toNat := by
  have hobs := hx.reads r hr
  have hmono := h.stamped.stampsAt_mono hx.end_le (addrToLockIdx r.addr)
  have hver := h.ver (addrToLockIdx r.addr)
  have hle : s.versions (addrToLockIdx r.addr) ≤ r.observedVersion.toNat := Nat.not_lt.1 hle
  omega

theorem Core.setTx {x : TxState} (hx : Snapshot s.log s.clock x) : Good s (s.setTx t x) := by
  refine ⟨⟨h.lt, h.free, h.ver, h.stamped, h.logLe, h.logLegal, h.roLegal, fun u => ?_⟩,
    .of_eq rfl rfl rfl⟩
  show Snapshot s.log s.clock (Function.update s.txStates t x u)
  by_cases hu : u = t
  · subst hu
    rwa [Function.update_self]
  · rw [Function.update_of_ne hu]
    exact h.tx u

end Reads

theorem validateReadSet_iff : s.validateReadSet t = true ↔ ∀ r ∈ (s.txStates t).readSet,
    (isWriteLocked (s.locks (addrToLockIdx r.addr)) = true →
      owner (s.locks (addrToLockIdx r.addr)) = tidWord t) ∧
    ¬r.observedVersion < version (s.locks (addrToLockIdx r.addr)) := by
  rw [validateReadSet, List.all_eq_true]
  refine forall₂_congr fun r _ => ?_
  cases hw : isWriteLocked (s.locks (addrToLockIdx r.addr)) <;> simp [hw]

theorem Core.extended (h : Core s) (hvalid : s.validateReadSet t = true) :
    Snapshot s.log s.clock { s.txStates t with endVersion := s.globalClock } where
  held := (h.tx t).held
  start_le := (h.tx t).start_le.trans (h.tx t).end_le
  end_le := le_rfl
  reads r hr := h.version_eq (h.tx t) hr (validateReadSet_iff.1 hvalid r hr).2

theorem Core.recorded (h : Core s) {addr : Word}
    (hver : ¬(s.txStates t).endVersion < version (s.locks (addrToLockIdx addr))) :
    ∀ r ∈ (s.txStates t).readSet ++ [⟨addr, version (s.locks (addrToLockIdx addr))⟩],
      stampsAt s.log (s.txStates t).endVersion.toNat (addrToLockIdx r.addr) =
        r.observedVersion.toNat := by
  intro r hr
  rcases List.mem_append.1 hr with hr | hr
  · exact (h.tx t).reads r hr
  · obtain rfl := List.mem_singleton.1 hr
    exact h.stampsAt_of_version_le (h.tx t).end_le hver

theorem Good.refl (h : Core s) : Good s s := ⟨h, .of_eq rfl rfl rfl⟩

/-- Calls that leave the clock and the log as they are, and then one that does not. -/
theorem Good.trans {s₁ : TmModel} (h : Good s₁ s') (hclock : s₁.globalClock = s.globalClock)
    (hpast : s₁.past = s.past) (hlog : s₁.log = s.log) : Good s s' := by
  have heq : s₁.clock = s.clock := congrArg BitVec.toNat hclock
  refine ⟨h.1, heq ▸ h.2.le, heq ▸ h.2.le_succ, h.2.past.trans hpast, fun n hn => ?_⟩
  rw [h.2.stamps n (heq ▸ hn), hlog]

theorem tmBegin_good (h : Core s) (t : Tid) : Good s (s.tmBegin t) :=
  h.setTx ⟨rfl, le_rfl, le_rfl, by simp⟩

theorem readLoop_good (addr : Word) (n : ℕ) (h : Core s) :
    Good s (readLoop s t addr n).2 := by
  induction n generalizing s with
  | zero => exact .refl h
  | succ n ih =>
      unfold readLoop
      dsimp only
      split
      · exact ih h
      · split
        · exact ih h
        · split
          · split
            · next hvalid =>
                exact (ih (h.setTx (h.extended hvalid)).1).trans rfl rfl rfl
            · exact .refl h
          · next hver =>
              exact h.setTx ⟨(h.tx t).held, (h.tx t).start_le, (h.tx t).end_le, h.recorded hver⟩

theorem tmRead_good (h : Core s) (t : Tid) (addr : Word) : Good s (s.tmRead t addr).2 := by
  unfold tmRead
  split
  · exact .refl h
  · split
    · exact .refl h
    · exact readLoop_good addr _ h

theorem writeLoop_good (addr val : Word) (n : ℕ) (h : Core s) :
    Good s (writeLoop s t addr val n).2 := by
  induction n generalizing s with
  | zero => exact .refl h
  | succ n ih =>
      unfold writeLoop
      dsimp only
      split
      · split
        · exact ih h
        · exact .refl h
      · split
        · exact ih h
        · split
          · split
            · next hvalid =>
                exact (ih (h.setTx (h.extended hvalid)).1).trans rfl rfl rfl
            · exact .refl h
          · next hver =>
              exact h.setTx ⟨(h.tx t).held, (h.tx t).start_le, (h.tx t).end_le, h.recorded hver⟩

theorem tmWrite_good (h : Core s) (t : Tid) (addr val : Word) :
    Good s (s.tmWrite t addr val).2 := by
  have hx := h.tx t
  unfold tmWrite
  dsimp only
  split
  · exact .refl h
  · split
    · exact h.setTx ⟨hx.held, hx.start_le, hx.end_le, hx.reads⟩
    · refine (writeLoop_good addr val _ (Core.setTx h ?_).1).trans rfl rfl rfl
      exact ⟨hx.held, hx.start_le, hx.end_le, hx.reads⟩

end Simulator.TmModel
