import ClangTM.TinySTM.Wbctl.Reset

/-!
# Running the clock of WBCTL to its bound

A thread that runs alone and commits one write after another moves the clock by one
each time. From there the reset is reached in concrete runs: one in which another
transaction is writing back when its lock is zeroed, and one with a quiet reset.
-/

namespace TinySTM.Wbctl

open Serial Transition

/-- The thread `t` runs alone, and all its states satisfy `good`. -/
def solo (good : Tx → Bool) (t : TxId) : Shared → Tx → List TxCall → Option (Shared × Tx)
  | σ, x, [] => some (σ, x)
  | σ, x, c :: cs =>
      (next t σ x c).bind fun p => if good p.2 then solo good t p.1 p.2 cs else none

section Solo

variable {good : Tx → Bool} {t : TxId} {σ σ' : Shared} {x x' : Tx} {c : TxCall}
  {cs : List TxCall}

theorem anyStep_put (s : State Tx) (t : TxId) (σ₁ : Shared) (x₁ : Tx) (c : TxCall) (σ₂ : Shared)
    (x₂ : Tx) (_ : good x₂ = true) : anyStep (s.put t σ₁ x₁) (t, c) (s.put t σ₂ x₂) :=
  trivial

theorem solo_cons (h : next t σ x c = some (σ', x')) (hgood : good x' = true) :
    solo good t σ x (c :: cs) = solo good t σ' x' cs := by
  rw [solo, h, Option.bind_some, if_pos hgood]

theorem run_of_solo {ok : State Tx → TxId × TxCall → State Tx → Prop} {s : State Tx}
    (hok : ∀ σ₁ x₁ c σ₂ x₂, good x₂ = true → ok (s.put t σ₁ x₁) (t, c) (s.put t σ₂ x₂))
    (h : solo good t σ x cs = some (σ', x')) :
    Run step ok (s.put t σ x) (s.put t σ' x') := by
  induction cs generalizing σ x with
  | nil =>
      obtain ⟨rfl, rfl⟩ := pair_eq h
      exact .refl
  | cons c cs ih =>
      rw [solo] at h
      obtain ⟨⟨σ₁, x₁⟩, hnext, h₁⟩ := Option.bind_eq_some_iff.1 h
      split at h₁
      · next hgood =>
          refine Run.trans (.tail (t, c) .refl ?_ (hok σ x c σ₁ x₁ hgood)) (ih h₁)
          change (next t σ ((s.put t σ x).tx t) c).map _ = _
          rw [State.put_tx_self, hnext]
          simp [State.put]
      · cases h₁

end Solo

section Routines

variable {t : TxId} {σ σ' : Shared} {x : Tx} {a : WordAddr} {rest : List WordAddr} {n : ℕ}

theorem next_acquireTry {p p' : TryLockPc} (hpc : x.pc = .acquireTry a rest n p)
    (hp : p.step σ t (lockOf a) = (σ', .inl p')) :
    next t σ x .tau = some (σ', { x with pc := .acquireTry a rest n p' }) := by
  simp only [next, hpc, hp]

theorem next_acquired {p : TryLockPc} (hpc : x.pc = .acquireTry a rest n p)
    (hp : p.step σ t (lockOf a) = (σ', .inr true)) :
    next t σ x .tau =
      some (σ', { x with pc := .acquire rest, locksHeld := x.locksHeld ++ [lockOf a] }) := by
  simp only [next, hpc, hp]

theorem next_clock {p p' : ClockPc} (hpc : x.pc = .increment p)
    (hp : p.step σ t = (σ', .inl p')) :
    next t σ x .tau = some (σ', { x with pc := .increment p' }) := by
  simp only [next, hpc, hp]

theorem next_incremented {p : ClockPc} (hpc : x.pc = .increment p)
    (hp : p.step σ t = (σ', .inr n)) :
    next t σ x .tau = some (σ', x.incremented n) := by
  simp only [next, hpc, hp]

end Routines

/-- A transaction that began at the clock value `n` and has recorded nothing yet. -/
def begun (n c₀ : ℕ) (readOnly : Bool) (pc : Pc) : Tx where
  pc := pc
  startVersion := n
  endVersion := n
  commitVersion := c₀
  active := true
  readOnly := readOnly

/-- A transaction that began at the clock value `n` and has written `w` to `a`, whose
lock had version `v`. -/
def writer (n c₀ v : ℕ) (a : WordAddr) (w : Word) (pc : Pc) (held : List LockIdx)
    (cv : Option ℕ) (done : Bool) : Tx where
  pc := pc
  startVersion := n
  endVersion := n
  commitVersion := c₀
  active := true
  readOnly := false
  readSet := [⟨a, v, w⟩]
  writeSet := [(a, w)]
  locksHeld := held
  hist := { trace := [.write a w], cv := cv, done := done }

section Writer

variable {good : Tx → Bool} {t : TxId} {σ : Shared} {d : ℕ} {a : WordAddr} {w : Word}

def lockCalls (a : WordAddr) (w : Word) : List TxCall :=
  [.begin, .tau, .write a w, .tau, .tau, .commit, .tau, .tau, .tau, .tau, .tau]

section

variable (hgood : ∀ x : Tx, x.pc.resetting = false → good x = true)
include hgood

theorem solo_lock (hclock : σ.gClock < versionMax) (hfree : isOwned (σ.locks (lockOf a)) = false)
    (hown : ownerOf (σ.locks (lockOf a)) ≠ t.val) (hver : versionOf (σ.locks (lockOf a)) ≤ σ.gClock)
    (cs : List TxCall) :
    solo good t σ { commitVersion := d } (lockCalls a w ++ cs) =
      solo good t (σ.setLock (lockOf a) (lockedBy (σ.locks (lockOf a)) t))
        (writer σ.gClock d (versionOf (σ.locks (lockOf a))) a w (.increment .add) [lockOf a]
          none false) cs := by
  have hready : σ.clockReady = true := decide_eq_true hclock
  let l := σ.locks (lockOf a)
  let wr := writer σ.gClock d (versionOf l) a w
  have h₁ : next t σ { commitVersion := d } .begin =
      some (σ, { pc := .beginClock, commitVersion := d }) := rfl
  have h₂ : next t σ { pc := .beginClock, commitVersion := d } .tau =
      some (σ, begun σ.gClock d true .body) := by
    change some (σ, if σ.clockReady then _ else _) = _
    rw [if_pos hready]
    rfl
  have h₃ : next t σ (begun σ.gClock d true .body) (.write a w) =
      some (σ, begun σ.gClock d false (.writeLock a w)) := rfl
  have h₄ : next t σ (begun σ.gClock d false (.writeLock a w)) .tau =
      some (σ, begun σ.gClock d false (.writeLockAgain a w l)) := by
    change some (σ, if isOwned l then _ else _) = _
    rw [if_neg (by simp [l, hfree])]
    rfl
  have h₅ : next t σ (begun σ.gClock d false (.writeLockAgain a w l)) .tau =
      some (σ, wr .body [] none false) := by
    change some (σ, if l ≠ l then _ else if versionOf l > σ.gClock then _ else _) = _
    rw [if_neg (by simp), if_neg (not_lt.2 hver)]
    rfl
  have h₆ : next t σ (wr .body [] none false) .commit =
      some (σ, wr .commitClock [] none false) := rfl
  have h₇ : next t σ (wr .commitClock [] none false) .tau =
      some (σ, wr (.acquire [a]) [] none false) := by
    change some (σ, if σ.clockReady then _ else _) = _
    rw [if_pos hready]
    rfl
  have h₈ : next t σ (wr (.acquire [a]) [] none false) .tau =
      some (σ, wr (.acquireTry a [] 0 .load) [] none false) := by
    change some (σ, if ownerOf l = t.val then _ else _) = _
    rw [if_neg hown]
    rfl
  have h₉ : next t σ (wr (.acquireTry a [] 0 .load) [] none false) .tau =
      some (σ, wr (.acquireTry a [] 0 (.cas l)) [] none false) :=
    next_acquireTry rfl (by rw [TryLockPc.step, if_neg (by simp [hfree])])
  have h₁₀ : next t σ (wr (.acquireTry a [] 0 (.cas l)) [] none false) .tau =
      some (σ.setLock (lockOf a) (lockedBy l t), wr (.acquire []) [lockOf a] none false) :=
    next_acquired rfl (by rw [TryLockPc.step, if_pos rfl])
  rw [lockCalls]
  simp only [List.cons_append, List.nil_append]
  rw [solo_cons h₁ (hgood _ rfl), solo_cons h₂ (hgood _ rfl), solo_cons h₃ (hgood _ rfl),
    solo_cons h₄ (hgood _ rfl), solo_cons h₅ (hgood _ rfl), solo_cons h₆ (hgood _ rfl),
    solo_cons h₇ (hgood _ rfl), solo_cons h₈ (hgood _ rfl), solo_cons h₉ (hgood _ rfl),
    solo_cons h₁₀ (hgood _ rfl)]
  exact solo_cons rfl (hgood _ rfl)

theorem solo_validate {n v : ℕ} (hclock : σ.gClock = n) (hmax : n + 1 < versionMax)
    (hown : lockOwner (σ.locks (lockOf a)) = some t) (hver : versionOf (σ.locks (lockOf a)) = v)
    (cs : List TxCall) :
    solo good t σ (writer n d v a w (.increment .add) [lockOf a] none false)
        (.tau :: .tau :: .tau :: cs) =
      solo good t { σ with gClock := n + 1, log := enter σ.log (n + 1) [.write a w] }
        (writer n d v a w (.writeBack (n + 1) [(a, w)]) [lockOf a] (some (n + 1)) true) cs := by
  subst hclock
  let wr := writer σ.gClock d v a w
  have h₁ : next t σ (wr (.increment .add) [lockOf a] none false) .tau =
      some ({ σ with gClock := σ.gClock + 1 }, wr (.validate (.commit (σ.gClock + 1)) [⟨a, v, w⟩])
        [lockOf a] (some (σ.gClock + 1)) false) := by
    rw [next_incremented rfl (by rw [ClockPc.step, if_neg (not_le.2 hmax)])]
    change some (_, if σ.gClock + 1 < σ.gClock then _ else
      if σ.gClock + 1 ≠ σ.gClock + 1 then _ else _) = _
    rw [if_neg (by omega), if_neg (by simp)]
    rfl
  have hstale : (⟨a, v, w⟩ : ReadLogEntry).stale t (σ.locks (lockOf a)) = false := by
    obtain ⟨-, howner⟩ := lockOwner_eq_some_iff.1 hown
    simp [ReadLogEntry.stale, howner, hver]
  have h₂ : next t { σ with gClock := σ.gClock + 1 } (wr (.validate (.commit (σ.gClock + 1))
      [⟨a, v, w⟩]) [lockOf a] (some (σ.gClock + 1)) false) .tau =
      some ({ σ with gClock := σ.gClock + 1 }, wr (.validate (.commit (σ.gClock + 1)) [])
        [lockOf a] (some (σ.gClock + 1)) false) := by
    change some (_, if (⟨a, v, w⟩ : ReadLogEntry).stale t (σ.locks (lockOf a)) then _ else _) = _
    rw [if_neg (by simp [hstale])]
    rfl
  rw [solo_cons h₁ (hgood _ rfl), solo_cons h₂ (hgood _ rfl)]
  exact solo_cons rfl (hgood _ rfl)

theorem solo_release {n v c : ℕ} (hown : lockOwner (σ.locks (lockOf a)) = some t)
    (hver : versionOf (σ.locks (lockOf a)) ≤ c) :
    solo good t σ (writer n d v a w (.writeBack c [(a, w)]) [lockOf a] (some c) true)
        (List.replicate 7 .tau) =
      some ({ ((σ.store a w).setLock (lockOf a) (withVersion c)) with gTxToken := none },
        { commitVersion := c }) := by
  let wr := fun pc held => writer n d v a w pc held (some c) true
  have h₁ : next t σ (wr (.writeBack c [(a, w)]) [lockOf a]) .tau =
      some (σ.store a w, wr (.writeBack c []) [lockOf a]) := rfl
  have h₂ : next t (σ.store a w) (wr (.writeBack c []) [lockOf a]) .tau =
      some (σ.store a w, wr (.release c [(a, w)]) [lockOf a]) := rfl
  have h₃ : next t (σ.store a w) (wr (.release c [(a, w)]) [lockOf a]) .tau =
      some (σ.store a w, wr (.releaseVersion c a []) [lockOf a]) := by
    change some (_, if isLockedBy (σ.locks (lockOf a)) t then _ else _) = _
    rw [if_pos (isLockedBy_iff.2 hown)]
    rfl
  have h₄ : next t (σ.store a w) (wr (.releaseVersion c a []) [lockOf a]) .tau =
      some (σ.store a w, wr (.releaseStore c a []) [lockOf a]) := by
    change some (_, if versionOf (σ.locks (lockOf a)) > c then _ else _) = _
    rw [if_neg (not_lt.2 hver)]
    rfl
  have h₅ : next t (σ.store a w) (wr (.releaseStore c a []) [lockOf a]) .tau =
      some ((σ.store a w).setLock (lockOf a) (withVersion c), wr (.release c []) [lockOf a]) :=
    rfl
  simp only [List.replicate]
  rw [solo_cons h₁ (hgood _ rfl), solo_cons h₂ (hgood _ rfl), solo_cons h₃ (hgood _ rfl),
    solo_cons h₄ (hgood _ rfl), solo_cons h₅ (hgood _ rfl)]
  exact (solo_cons rfl (hgood _ rfl)).trans (solo_cons rfl (hgood _ rfl))

end

def writeCalls (a : WordAddr) (w : Word) : List TxCall :=
  lockCalls a w ++ .tau :: .tau :: .tau :: List.replicate 7 .tau

/-- What is left of a lock that the thread alone has used. -/
structure LockFree (σ : Shared) (ℓ : LockIdx) : Prop where
  free : isOwned (σ.locks ℓ) = false
  owner : ownerOf (σ.locks ℓ) = 0
  ver : versionOf (σ.locks ℓ) ≤ σ.gClock

theorem LockFree.of_zero {ℓ : LockIdx} (h : σ.locks ℓ = 0) : LockFree σ ℓ where
  free := by simp [h]
  owner := by simp [h]
  ver := by simp [h]

theorem LockFree.owner_ne {ℓ : LockIdx} (h : LockFree σ ℓ) (t : TxId) :
    ownerOf (σ.locks ℓ) ≠ t.val := by
  rw [h.owner]
  exact t.pos.ne

theorem solo_write (hgood : ∀ x : Tx, x.pc.resetting = false → good x = true)
    (hmax : σ.gClock + 1 < versionMax) (hlock : LockFree σ (lockOf a)) :
    ∃ σ', solo good t σ { commitVersion := d } (writeCalls a w) =
        some (σ', { commitVersion := σ.gClock + 1 }) ∧
      σ'.gClock = σ.gClock + 1 ∧ LockFree σ' (lockOf a) ∧
      (∀ ℓ, ℓ ≠ lockOf a → σ'.locks ℓ = σ.locks ℓ) ∧ σ'.resetLocksThr = σ.resetLocksThr := by
  rw [writeCalls, solo_lock hgood (by omega) hlock.free (hlock.owner_ne t) hlock.ver,
    solo_validate (σ := σ.setLock (lockOf a) (lockedBy (σ.locks (lockOf a)) t))
      (n := σ.gClock) hgood rfl hmax (by simp [Shared.setLock]) (by simp [Shared.setLock]),
    solo_release hgood (by simp [Shared.setLock])
      (by simpa [Shared.setLock] using hlock.ver.trans (Nat.le_succ _))]
  refine ⟨_, rfl, rfl, ⟨?_, ?_, ?_⟩, fun ℓ hℓ => ?_, rfl⟩
  · simp [Shared.setLock]
  · simp [Shared.setLock]
  · rw [versionMax_eq] at hmax
    simp only [Shared.setLock, Function.update_self]
    rw [versionOf_withVersion (by omega)]
    rfl
  · simp [Shared.setLock, Shared.store, hℓ]

end Writer

section Clock

variable {good : Tx → Bool} {ok : State Tx → TxId × TxCall → State Tx → Prop}
  {m : WordAddr → Word} {t : TxId} {σ : Shared}

/-- One thread that commits writes to the first word drives the clock up to its bound. -/
theorem exists_run_clock (hgood : ∀ x : Tx, x.pc.resetting = false → good x = true)
    (hok : ∀ σ₁ x₁ c σ₂ x₂, good x₂ = true →
      ok ((init m).put t σ₁ x₁) (t, c) ((init m).put t σ₂ x₂)) (n : ℕ)
    (hn : n + 1 < versionMax) :
    ∃ σ c₀, Run step ok (init m) ((init m).put t σ { commitVersion := c₀ }) ∧
      σ.gClock = n + 1 ∧ LockFree σ (lockOf firstWord) ∧
      (∀ ℓ, ℓ ≠ lockOf firstWord → σ.locks ℓ = 0) ∧ σ.resetLocksThr = 0 := by
  induction n with
  | zero =>
      refine ⟨(init m).shared, 0, ?_, rfl, .of_zero rfl, fun _ _ => rfl, rfl⟩
      have hself : (init m).put t (init m).shared { commitVersion := 0 } = init m :=
        State.put_self (s := init m)
      rw [hself]
      exact .refl
  | succ n ih =>
      obtain ⟨σ, c₀, hrun, hclock, hlock, hlocks, hthr⟩ := ih (by omega)
      obtain ⟨σ', hsolo, hclock', hlock', hlocks', hthr'⟩ :=
        solo_write (t := t) (w := 1) hgood (by omega) hlock
      refine ⟨σ', _, hrun.trans (run_of_solo hok hsolo), by omega, hlock', fun ℓ hℓ => ?_,
        hthr'.trans hthr⟩
      rw [hlocks' ℓ hℓ, hlocks ℓ hℓ]

theorem solo_full (hgood : ∀ x : Tx, x.pc.resetting = false → good x = true) {x : Tx}
    (hpc : x.pc = .increment .add) (hmax : versionMax ≤ σ.gClock + 1) (hthr : σ.resetLocksThr = 0)
    (hlate : good { x with pc := .increment (.reset ⟨0, by decide⟩) } = true) (cs : List TxCall) :
    solo good t σ x (.tau :: .tau :: cs) =
      solo good t { σ with gClock := σ.gClock + 1, resetLocksThr := t.val }
        { x with pc := .increment (.reset ⟨0, by decide⟩) } cs := by
  have h₁ : next t σ x .tau =
      some ({ σ with gClock := σ.gClock + 1 }, { x with pc := .increment .cas }) :=
    next_clock hpc (by rw [ClockPc.step, if_pos hmax])
  have h₂ : next t { σ with gClock := σ.gClock + 1 } { x with pc := .increment .cas } .tau =
      some ({ σ with gClock := σ.gClock + 1, resetLocksThr := t.val },
        { x with pc := .increment (.reset ⟨0, by decide⟩) }) :=
    next_clock rfl (by rw [ClockPc.step, if_pos hthr])
  rw [solo_cons h₁ (hgood _ rfl), solo_cons h₂ hlate]

theorem solo_reset {x : Tx} (hgood : ∀ p, good { x with pc := .increment p } = true)
    (cs : List TxCall) (k : ℕ) (i : LockIdx) (hi : i.val + k + 1 = lockArraySize) (σ : Shared) :
    ∃ σ', solo good t σ { x with pc := .increment (.reset i) }
        (List.replicate (k + 1) .tau ++ cs) =
      solo good t σ' { x with pc := .increment .storeClock } cs := by
  induction k generalizing i σ with
  | zero =>
      have h : next t σ { x with pc := .increment (.reset i) } .tau =
          some (σ.setLock i 0, { x with pc := .increment .storeClock }) :=
        next_clock rfl (by rw [ClockPc.step, dif_neg (by omega)])
      exact ⟨_, solo_cons h (hgood _)⟩
  | succ k ih =>
      have hlt : i.val + 1 < lockArraySize := by omega
      have h : next t σ { x with pc := .increment (.reset i) } .tau =
          some (σ.setLock i 0, { x with pc := .increment (.reset ⟨i.val + 1, hlt⟩) }) :=
        next_clock rfl (by rw [ClockPc.step, dif_pos hlt])
      obtain ⟨σ', hσ'⟩ := ih ⟨i.val + 1, hlt⟩ (by simp only; omega) (σ.setLock i 0)
      exact ⟨σ', (solo_cons h (hgood _)).trans hσ'⟩

/-- The clock starts at 1 again, which is too old for the transaction that reset it. -/
theorem solo_restart {x : Tx} (hend : 1 < x.endVersion)
    (hgood : ∀ y : Tx, y.endVersion = x.endVersion → good y = true) :
    ∃ σ', solo good t σ { x with pc := .increment .storeClock } [.tau, .tau, .tau] =
        some (σ', { x.abortTx with hist := {} }) ∧ σ'.gClock = 1 := by
  have h₁ : next t σ { x with pc := .increment .storeClock } .tau =
      some ({ σ with
          gClock := 1
          log := fun _ => none
          ro := []
          past := σ.past ++ schedule σ.log σ.ro σ.gClock },
        { x with pc := .increment .storeThr }) := rfl
  have h₂ : ∀ σ : Shared, next t σ { x with pc := .increment .storeThr } .tau =
      some ({ σ with resetLocksThr := 0 }, { x with pc := .increment .reload }) := fun _ => rfl
  have h₃ : ∀ σ : Shared, σ.gClock = 1 →
      next t σ { x with pc := .increment .reload } .tau =
        some (σ, { x.abortTx with hist := {} }) := by
    intro σ hσ
    rw [next_incremented rfl (by rw [ClockPc.step, hσ])]
    change some (σ, if 1 < x.endVersion then _ else _) = _
    rw [if_pos hend]
    rfl
  rw [solo_cons h₁ (hgood _ rfl), solo_cons (h₂ _) (hgood _ rfl),
    solo_cons (h₃ _ rfl) (hgood _ rfl)]
  exact ⟨_, rfl, rfl⟩

/-- A commit that finds the clock at its bound and runs alone resets it, and aborts. -/
theorem exists_run_reset (hgood : ∀ x : Tx, x.pc.resetting = false → good x = true)
    (hok : ∀ σ₁ x₁ c σ₂ x₂, good x₂ = true →
      ok ((init m).put t σ₁ x₁) (t, c) ((init m).put t σ₂ x₂))
    (hmax : σ.gClock + 1 = versionMax) (hlock : LockFree σ (lockOf firstWord))
    (hthr : σ.resetLocksThr = 0) (c₀ : ℕ)
    (hlate : ∀ x : Tx, x.endVersion = σ.gClock → good x = true) :
    ∃ σ' x', Run step ok ((init m).put t σ { commitVersion := c₀ }) ((init m).put t σ' x') ∧
      σ'.gClock = 1 ∧ x'.endVersion = σ.gClock := by
  let x := writer σ.gClock c₀ (versionOf (σ.locks (lockOf firstWord))) firstWord 1
    (.increment .add) [lockOf firstWord] none false
  have hsolo := solo_lock (t := t) (d := c₀) (w := 1) hgood (by omega) hlock.free
    (hlock.owner_ne _) hlock.ver
    (.tau :: .tau :: (List.replicate (lockArraySize - 1 + 1) .tau ++ [.tau, .tau, .tau]))
  let σ₀ := σ.setLock (lockOf firstWord) (lockedBy (σ.locks (lockOf firstWord)) t)
  have hfull := solo_full (t := t) (σ := σ₀) (x := x) hgood rfl hmax.ge hthr (hlate _ rfl)
    (List.replicate (lockArraySize - 1 + 1) .tau ++ [.tau, .tau, .tau])
  obtain ⟨σ₁, hreset⟩ := solo_reset (t := t) (x := x) (fun p => hlate
    { x with pc := .increment p } rfl)
    [.tau, .tau, .tau] (lockArraySize - 1) ⟨0, by decide⟩ (by decide)
    { σ₀ with gClock := σ.gClock + 1, resetLocksThr := t.val }
  obtain ⟨σ₂, hstart, hclock⟩ := solo_restart (t := t) (σ := σ₁) (x := x)
    (by rw [versionMax_eq] at hmax; change 1 < σ.gClock; omega) hlate
  exact ⟨σ₂, _, run_of_solo hok (hsolo.trans (hfull.trans (hreset.trans hstart))), hclock, rfl⟩

end Clock

/-- The second transaction writes back with the last clock value below the bound. -/
theorem exists_run_writeBack : ∃ σ n c₀ v,
    Run step anyStep (init fun _ => 0) ((init fun _ => 0).put secondTx σ
      (writer n c₀ v firstWord 1 (.writeBack (n + 1) [(firstWord, 1)]) [lockOf firstWord]
        (some (n + 1)) true)) ∧
      σ.gClock + 1 = versionMax ∧ (∀ ℓ, ℓ ≠ lockOf firstWord → σ.locks ℓ = 0) ∧
      σ.resetLocksThr = 0 := by
  have hgood : ∀ x : Tx, x.pc.resetting = false → (fun _ : Tx => true) x = true :=
    fun _ _ => rfl
  obtain ⟨σ, c₀, hrun, hclock, hlock, hlocks, hthr⟩ :=
    exists_run_clock (m := fun _ => 0) (t := secondTx) hgood
      (anyStep_put _ _) (versionMax - 3) (by rw [versionMax_eq]; decide)
  have hmax : σ.gClock + 2 = versionMax := by
    rw [versionMax_eq] at hclock ⊢
    omega
  have hsolo := solo_lock (t := secondTx) (d := c₀) (w := 1) hgood (by omega) hlock.free
    (hlock.owner_ne _) hlock.ver [.tau, .tau, .tau]
  rw [solo_validate (σ := σ.setLock (lockOf firstWord)
    (lockedBy (σ.locks (lockOf firstWord)) secondTx)) (n := σ.gClock) hgood rfl (by omega)
    (by simp [Shared.setLock]) (by simp [Shared.setLock])] at hsolo
  refine ⟨_, σ.gClock, c₀, _, hrun.trans (run_of_solo (anyStep_put _ _) hsolo), hmax,
    fun ℓ hℓ => ?_, hthr⟩
  rw [← hlocks ℓ hℓ]
  exact Function.update_of_ne hℓ _ _

end TinySTM.Wbctl
