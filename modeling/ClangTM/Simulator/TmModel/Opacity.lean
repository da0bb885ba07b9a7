import ClangTM.Simulator.TmModel.Commit

/-!
# The TM model is opaque

In every run in which the clock stays below `2 ^ 46`, what an active transaction has read is the
versions that the locks had at one value of the clock since it began, and the transactions that
have committed are a serial run.

The bound cannot be left out. A lock keeps 46 bits of a version, so that after `2 ^ 46` commits
a lock has a version that is not above the `end_version` of a transaction that began at the
start, and is read without an extension of the snapshot.
-/

namespace Simulator.TmModel

open Serial Transition LockWord

structure Inv (s : TmModel) : Prop where
  core : Core s
  past : ∀ n ≤ s.clock, s.past n = stampsAt s.log n

def Bounded (_ : TmModel) (_ : Tid × Call) (s' : TmModel) : Prop := s'.clock < 2 ^ 46

instance (s : TmModel) (l : Tid × Call) (s' : TmModel) : Decidable (Bounded s l s') :=
  inferInstanceAs (Decidable (_ < _))

section Run

variable {s : TmModel}

theorem inv_new : Inv new where
  core :=
    { lt := by decide
      free := fun _ => (by decide : isLocked (LockWord.new 0) = false)
      ver := fun _ => (by decide : (version (LockWord.new 0)).toNat = 0)
      stamped := fun _ _ _ _ h => by cases h
      logLe := fun _ _ h => by cases h
      logLegal := fun _ _ h => by cases h
      roLegal := fun _ h => by cases h
      tx := fun _ => ⟨rfl, le_rfl, Nat.zero_le _, fun _ h => by cases h⟩ }
  past n hn := by
    have hn : n ≤ 1 := hn
    rcases Nat.le_one_iff_eq_zero_or_eq_one.1 hn with rfl | rfl <;> rfl

theorem call_good (h : Core s) (l : Tid × Call) (hlt : (s.call l.1 l.2).clock < 2 ^ 46) :
    Good s (s.call l.1 l.2) := by
  obtain ⟨t, c⟩ := l
  cases c with
  | tmBegin => exact tmBegin_good h t
  | tmRead addr => exact tmRead_good h t addr
  | tmWrite addr val => exact tmWrite_good h t addr val
  | tmCommit => exact tmCommit_good h hlt
  | tmEnd => exact tmEnd_good h hlt
  | tmAbort => exact tmAbortReason_good h t _

theorem Inv.call (h : Inv s) (l : Tid × Call) (hlt : (s.call l.1 l.2).clock < 2 ^ 46) :
    Inv (s.call l.1 l.2).note := by
  obtain ⟨hcore, hgrows⟩ := call_good h.core l hlt
  refine ⟨⟨hcore.lt, hcore.free, hcore.ver, hcore.stamped, hcore.logLe, hcore.logLegal,
    hcore.roLegal, hcore.tx⟩, fun n hn => ?_⟩
  have hn : n ≤ (s.call l.1 l.2).clock := hn
  show Function.update (s.call l.1 l.2).past (s.call l.1 l.2).clock _ n = _
  by_cases heq : n = (s.call l.1 l.2).clock
  · subst heq
    rw [Function.update_self]
    exact funext hcore.ver
  · have hle : n ≤ s.clock := by
      have := hgrows.le_succ
      omega
    rw [Function.update_of_ne heq, hgrows.past, h.past n hle]
    exact (hgrows.stamps n hle).symm

theorem inv_run (hr : Run step Bounded new s) : Inv s := by
  refine hr.induction_on inv_new fun s₁ l s₂ _ h hs hb => ?_
  cases hs
  exact h.call l hb

/-- The reads of an active transaction are the versions of the locks at one clock value since
its begin; no version is above the clock; the locks are free; and the transactions that have
committed are a serial run over the versions of the locks, in the order of their commit versions
and with the read-only ones at their `end_version`, which leads to the present versions. -/
theorem opacity_of_bounded (hr : Run step Bounded new s) :
    (∀ t, (s.txStates t).active = true →
      ∃ n, (s.txStates t).startVersion.toNat ≤ n ∧ n ≤ s.clock ∧
        ∀ r ∈ (s.txStates t).readSet,
          s.past n (addrToLockIdx r.addr) = r.observedVersion.toNat) ∧
    (∀ li, s.versions li ≤ s.clock) ∧ (∀ li, isLocked (s.locks li) = false) ∧
    SerialRun (fun _ => 0) (schedule s.log s.ro s.clock) s.versions := by
  have h := inv_run hr
  refine ⟨fun t _ => ?_, fun li => ?_, h.core.free, ?_⟩
  · have hx := h.core.tx t
    refine ⟨(s.txStates t).endVersion.toNat, hx.start_le, hx.end_le, fun r hread => ?_⟩
    rw [h.past _ hx.end_le]
    exact hx.reads r hread
  · rw [h.core.ver]
    exact h.core.stamped.stampsAt_le _ _
  · rw [show s.versions = stampsAt s.log s.clock from funext h.core.ver]
    exact schedule_serialRun s.clock (fun c w _ _ hw => h.core.logLegal c w hw)
      fun r hro => (h.core.roLegal r hro).2

end Run

/-- Thread 0 reads one word, thread 1 changes it and another one, and thread 0 extends its
snapshot at the second one and fails. -/
theorem opacity_of_bounded_two : ∃ s : TmModel, Run step Bounded new s ∧
    (s.txStates 0).active = true ∧ (s.txStates 0).readSet = [⟨8, 0⟩] ∧
    (s.tmRead 0 16).1 = .error .readValidateFail ∧ s.clock = 3 ∧
    ∃ n, 1 ≤ n ∧ n ≤ 3 ∧ s.past n (addrToLockIdx 8) = 0 := by
  obtain ⟨s, hr, hactive, hstart, hread, hfail, hclock⟩ :
      ∃ s, Run step Bounded new s ∧ (s.txStates 0).active = true ∧
        (s.txStates 0).startVersion.toNat = 1 ∧ (s.txStates 0).readSet = [⟨8, 0⟩] ∧
        (s.tmRead 0 16).1 = .error .readValidateFail ∧ s.clock = 3 :=
    exists_run_of_exec
      [(0, .tmBegin), (0, .tmRead 8), (1, .tmBegin), (1, .tmWrite 8 7), (1, .tmEnd),
        (1, .tmBegin), (1, .tmRead 8), (1, .tmWrite 16 7), (1, .tmCommit)]
      (by decide +kernel)
  obtain ⟨hsnapshot, -⟩ := opacity_of_bounded hr
  obtain ⟨n, hle, hnow, hreads⟩ := hsnapshot 0 hactive
  rw [hstart] at hle
  rw [hclock] at hnow
  refine ⟨s, hr, hactive, hread, hfail, hclock, n, hle, hnow, ?_⟩
  exact hreads ⟨8, 0⟩ (by rw [hread]; exact List.mem_cons_self)

section Wrap

variable {s : TmModel} {t : Tid} {addr : Word} {val : Word}

theorem readLoop_of_free {n : ℕ} (hfree : isLocked (s.locks (addrToLockIdx addr)) = false)
    (hver : ¬(s.txStates t).endVersion < version (s.locks (addrToLockIdx addr))) :
    readLoop s t addr (n + 1) = (.ok (version (s.locks (addrToLockIdx addr))), s.setTx t
      { s.txStates t with
        readSet := (s.txStates t).readSet ++ [⟨addr,
            version (s.locks (addrToLockIdx addr))⟩] }) := by
  rw [readLoop]
  simp [isWriteLocked_of_free hfree, hver]

theorem writeLoop_of_free {n : ℕ} (hfree : isLocked (s.locks (addrToLockIdx addr)) = false)
    (hver : ¬(s.txStates t).endVersion < version (s.locks (addrToLockIdx addr))) :
    writeLoop s t addr val (n + 1) = (.ok (), s.setTx t
      { s.txStates t with
        writeSet := (s.txStates t).writeSet ++ [⟨addr, val⟩]
        readSet := (s.txStates t).readSet ++ [⟨addr,
            version (s.locks (addrToLockIdx addr))⟩] }) := by
  rw [writeLoop]
  simp [isWriteLocked_of_free hfree, hver]

def take (s : TmModel) (t : Tid) (addr : Word) : TmModel :=
  let li := addrToLockIdx addr
  { s with locks := Function.update s.locks li (lockedBy (s.locks li) (tidWord t)) }

theorem acquireAll_of_free (hfree : isLocked (s.locks (addrToLockIdx addr)) = false) :
    acquireAll s t [] [addr] = (s.take t addr, [addrToLockIdx addr], none) := by
  have hacquire : acquire s t (addrToLockIdx addr) (4999 + 1) = .ok (s.take t addr) := by
    rw [acquire, tryLock, hfree]
    rfl
  rw [acquireAll, show spinIterations = 4999 + 1 from rfl, hacquire]
  rfl

def single (s : TmModel) (addr val : Word) : TxState :=
  { active := true, readOnly := false, startVersion := s.globalClock, endVersion := s.globalClock
    readSet := [⟨addr, version (s.locks (addrToLockIdx addr))⟩], writeSet := [⟨addr, val⟩] }

theorem tmWrite_of_free (hfree : isLocked (s.locks (addrToLockIdx addr)) = false)
    (hver : s.versions (addrToLockIdx addr) ≤ s.clock) :
    ((s.tmBegin t).note.tmWrite t addr val).2 = s.note.setTx t (s.single addr val) := by
  have hx : (s.tmBegin t).note.txStates t =
      { active := true, startVersion := s.globalClock, endVersion := s.globalClock } :=
    Function.update_self _ _ _
  rw [tmWrite, hx]
  dsimp only
  rw [if_neg (by simp), if_neg (by simp), show spinIterations = 4999 + 1 from rfl,
    writeLoop_of_free]
  · simp [setTx, tmBegin, note, single]
  · exact hfree
  · rw [setTx_tx_self]
    exact Nat.not_lt.2 hver

theorem tmCommit_of_single (hx : s.txStates t = s.single addr val)
    (hfree : isLocked (s.locks (addrToLockIdx addr)) = false) :
    (s.tmCommit t).2.globalClock = s.globalClock + 1 ∧
      ((s.tmCommit t).2.txStates t).active = false ∧
      (∀ u, u ≠ t → (s.tmCommit t).2.txStates u = s.txStates u) ∧
      (s.tmCommit t).2.past = s.past ∧
      (s.tmCommit t).2.locks = Function.update s.locks (addrToLockIdx addr)
        (unlockWithVersion (lockedBy (s.locks (addrToLockIdx addr)) (tidWord t)) (tidWord t)
          (s.globalClock + 1)) := by
  have hcommit : s.tmCommit t = (s.take t addr).commitHeld t [addrToLockIdx addr] := by
    rw [tmCommit, hx]
    show (if _ then _ else if _ then _ else _) = _
    rw [if_neg (by simp [single]), if_neg (by simp [single]),
      show sortedAddrs (s.single addr val) = [addr] from rfl, acquireAll_of_free hfree]
  have hvalid : ((s.take t addr).bumpClock t [addrToLockIdx addr]).validateReadSet t = true := by
    rw [validateReadSet_iff]
    intro r hr
    obtain rfl : r = ⟨addr, version (s.locks (addrToLockIdx addr))⟩ := by
      have hset : ((s.take t addr).txStates t).readSet = _ := congrArg TxState.readSet hx
      simpa [bumpClock, setTx, hset, single] using hr
    simp [bumpClock, setTx, take]
  rw [hcommit, commitHeld, if_pos hvalid]
  refine ⟨rfl, ?_, fun u hu => ?_, rfl, ?_⟩
  · rw [commitEnd_tx_self]
  · rw [commitEnd_tx_of_ne hu]
    exact Function.update_of_ne hu _ _
  · show Function.update (Function.update s.locks _ _) _ (unlockWithVersion
      (Function.update s.locks _ _ _) _ _) = _
    rw [Function.update_idem, Function.update_self]
    rfl

def reader : TxState :=
  { active := true, startVersion := 1, endVersion := 1, readSet := [⟨8, 0⟩] }

/-- The same transaction, when it has read the second word at version 1. -/
def lateReader : TxState :=
  { active := true, startVersion := 1, endVersion := 1, readSet := [⟨8, 0⟩, ⟨16, 1⟩] }

/-- The first word has been changed once, and the second one `k` times since then. -/
structure Behind (k : ℕ) (s : TmModel) : Prop where
  clock : s.clock = 2 + k
  reads : s.txStates 0 = reader
  first : s.versions (addrToLockIdx 8) = 2
  free : isLocked (s.locks (addrToLockIdx 16)) = false
  le : s.versions (addrToLockIdx 16) ≤ s.clock
  second : 0 < k → s.versions (addrToLockIdx 16) = s.clock % 2 ^ 46
  start : s.past 1 (addrToLockIdx 16) = 0
  past : ∀ n, 2 ≤ n → n < s.clock → s.past n (addrToLockIdx 8) = 2

namespace Behind

variable {k : ℕ}

theorem note (h : Behind k s) : Behind k s.note := by
  refine ⟨h.clock, h.reads, h.first, h.free, h.le, h.second, ?_, fun n hn hlt => ?_⟩
  · show Function.update s.past s.clock _ 1 _ = 0
    rw [Function.update_of_ne (by rw [h.clock]; omega)]
    exact h.start
  · have hlt : n < s.clock := hlt
    show Function.update s.past s.clock _ n _ = 2
    rw [Function.update_of_ne (Nat.ne_of_lt hlt)]
    exact h.past n hn hlt

theorem past_note (h : Behind k s) {n : ℕ} (hn : 2 ≤ n) (hle : n ≤ s.clock) :
    s.note.past n (addrToLockIdx 8) = 2 := by
  rcases Nat.lt_or_eq_of_le hle with hlt | rfl
  · exact h.note.past n hn hlt
  · show Function.update s.past s.clock _ s.clock _ = 2
    rw [Function.update_self]
    exact h.first

theorem succ (h : Behind k s) (hk : k < 2 ^ 46) :
    ∃ s', Run step anyStep s s' ∧ Behind (k + 1) s' := by
  let s₂ := (s.note.setTx 1 (s.single 16 0)).note
  have h₂ : Behind k s₂ :=
    note ⟨h.clock, h.reads, h.first, h.free, h.le, h.second, h.note.start, h.note.past⟩
  have hwrite : ((s.tmBegin 1).note.tmWrite 1 16 0).2 = s.note.setTx 1 (s.single 16 0) :=
    tmWrite_of_free h.free h.le
  have hx : s₂.txStates 1 = s₂.single 16 0 := setTx_tx_self s.note 1 (s.single 16 0)
  obtain ⟨hclock, -, hother, hpast, hlocks⟩ := tmCommit_of_single hx h.free
  have hsucc : (s₂.tmCommit 1).2.clock = 2 + (k + 1) := by
    rw [TmModel.clock, hclock, BitVec.toNat_add,
      show s₂.globalClock.toNat = 2 + k from h₂.clock, show (1 : Word).toNat = 1 from rfl]
    omega
  have hfirst : (s₂.tmCommit 1).2.versions (addrToLockIdx 8) = 2 := by
    rw [versions, hlocks, Function.update_of_ne (by decide)]
    exact h.first
  obtain ⟨hfree, hver⟩ := unlockOwner_free (t := 1) (l := setVersion (lockedBy
    (s₂.locks (addrToLockIdx 16)) (tidWord 1)) (s₂.globalClock + 1))
    (.inl (by rw [owner_setVersion, owner_lockedBy]))
  have hsecond : (s₂.tmCommit 1).2.versions (addrToLockIdx 16) =
      (s₂.tmCommit 1).2.clock % 2 ^ 46 := by
    rw [versions, hlocks, Function.update_self, unlockWithVersion, hver, version_setVersion,
      toNat_and_versionMask, TmModel.clock, hclock]
  refine ⟨(s₂.tmCommit 1).2.note, ?_, note ⟨hsucc, ?_, hfirst, ?_, ?_, fun _ => hsecond,
    ?_, fun n hn hlt => ?_⟩⟩
  · have hbegin : step s (1, .tmBegin) = some (s.tmBegin 1).note := rfl
    have hput : step (s.tmBegin 1).note (1, .tmWrite 16 0) = some s₂ := by
      rw [step, call, hwrite]
    exact ((Run.refl.tail _ hbegin trivial).tail _ hput trivial).tail (1, .tmCommit) rfl trivial
  · rw [hother 0 (by decide)]
    exact h₂.reads
  · rw [hlocks, Function.update_self]
    exact hfree
  · rw [hsecond]
    exact Nat.mod_le _ _
  · rw [hpast]
    exact h₂.start
  · have hle : n ≤ s.clock := by
      rw [hsucc] at hlt
      rw [h.clock]
      omega
    rw [hpast]
    exact past_note (s := s.note.setTx 1 (s.single 16 0))
      ⟨h.clock, h.reads, h.first, h.free, h.le, h.second, h.note.start, h.note.past⟩ hn hle

theorem iterate (h : Behind 0 s) {n : ℕ} (hn : n ≤ 2 ^ 46) :
    ∃ s', Run step anyStep s s' ∧ Behind n s' := by
  induction n with
  | zero => exact ⟨s, .refl, h⟩
  | succ n ih =>
      obtain ⟨s₁, hr₁, h₁⟩ := ih (by omega)
      obtain ⟨s₂, hr₂, h₂⟩ := h₁.succ (by omega)
      exact ⟨s₂, hr₁.trans hr₂, h₂⟩

end Behind

/-- Thread 0 reads the first word at the start. Thread 1 changes it, and then changes the second
word `2 ^ 46 - 1` times, after which the lock of the second word has version 1. Thread 0 reads
it, with a snapshot of clock value 1, and has read versions that the locks never had together. -/
theorem not_snapshot_of_wrap : ∃ s : TmModel, Run step anyStep new s ∧
    (s.txStates 0).active = true ∧
    ¬∃ n, (s.txStates 0).startVersion.toNat ≤ n ∧ n ≤ s.clock ∧
      ∀ r ∈ (s.txStates 0).readSet,
        s.past n (addrToLockIdx r.addr) = r.observedVersion.toNat := by
  obtain ⟨s₀, hs₀, h₀⟩ : ∃ s₀, exec step anyStep new
      [(0, .tmBegin), (0, .tmRead 8), (1, .tmBegin), (1, .tmWrite 8 7), (1, .tmCommit)] = some s₀ ∧
      Behind 0 s₀ := by
    refine ⟨_, rfl, rfl, rfl, rfl, rfl, by decide, by decide, rfl, fun n hn hlt => ?_⟩
    have hlt : n < 2 := hlt
    omega
  obtain ⟨s, hr, h⟩ := h₀.iterate (n := 2 ^ 46 - 1) (by decide)
  have hver : version (s.locks (addrToLockIdx 16)) = 1 := by
    refine BitVec.eq_of_toNat_eq ?_
    rw [show (version (s.locks (addrToLockIdx 16))).toNat = _ from h.second (by decide), h.clock]
    decide
  have hread : (s.tmRead 0 16).2 = s.setTx 0 lateReader := by
    rw [tmRead, h.reads]
    show (readLoop s 0 16 (4999 + 1)).2 = _
    rw [readLoop_of_free h.free (by rw [hver, h.reads]; decide), hver, h.reads]
    rfl
  refine ⟨(s.tmRead 0 16).2.note, ((run_of_exec hs₀).trans hr).tail (0, .tmRead 16) rfl trivial,
    ?_⟩
  rw [hread, show (s.setTx 0 lateReader).note.txStates 0 = lateReader from setTx_tx_self s 0 _]
  refine ⟨rfl, ?_⟩
  rintro ⟨n, hstart, hle, hreads⟩
  have hstart : 1 ≤ n := hstart
  have hle : n ≤ s.clock := hle
  by_cases hn : n = 1
  · subst hn
    have hone : s.note.past 1 (addrToLockIdx 16) = 1 :=
      hreads ⟨16, 1⟩ (List.mem_cons_of_mem _ List.mem_cons_self)
    rw [h.note.start] at hone
    cases hone
  · have hzero : s.note.past n (addrToLockIdx 8) = 0 := hreads ⟨8, 0⟩ List.mem_cons_self
    rw [h.past_note (by omega) hle] at hzero
    cases hzero

end Wrap

end Simulator.TmModel
