import ClangTM.TinySTM.Lock
import ClangTM.Serial.RedoLog
import ClangTM.Transition.Run
import ClangTM.VersionLock.Invariant

/-!
# What the TinySTM designs share

The shared state of TinySTM: the global clock, the lock table, the spin token and
memory. The routines that all designs call are small machines of their own: they
make one access a step, and a step gives the next access or the result of the
routine. A design embeds their program counters in its own.

A thread is known by the id of its transaction. `State.step` makes a system of any
number of threads out of the step function of one thread. The fields `log`, `ro` and
`past` of the shared state record the committed transactions and are not read by any
step.
-/

namespace TinySTM

open Serial

def lockExtraBits : ℕ := 3

def lockArrayLogSize : ℕ := 14

def lockArraySize : ℕ := 1 <<< lockArrayLogSize

def lockArrayMask : ℕ := lockArraySize - 1

abbrev LockIdx := Fin lockArraySize

/-- `LockTable::get`: the lock of a word. Words that are a multiple of `2 ^ 17`
bytes apart share one. -/
def lockOf (a : WordAddr) : LockIdx :=
  ⟨(a.val >>> lockExtraBits) &&& lockArrayMask, Nat.and_lt_two_pow (n := 14) _ (by decide)⟩

/-- The shared state, and the history of the committed transactions: those since the
last reset of the clock, and the serial order of the ones before. -/
structure Shared where
  gClock : ℕ := 1
  resetLocksThr : ℕ := 0
  gTxToken : Option TxId := none
  locks : LockIdx → Word := fun _ => 0
  mem : WordAddr → Word
  log : ℕ → Option (Trace WordAddr Word) := fun _ => none
  ro : List (ℕ × Trace WordAddr Word) := []
  past : List (Trace WordAddr Word) := []

namespace Shared

def setLock (σ : Shared) (ℓ : LockIdx) (l : Word) : Shared :=
  { σ with locks := Function.update σ.locks ℓ l }

def store (σ : Shared) (a : WordAddr) (v : Word) : Shared :=
  { σ with mem := Function.update σ.mem a v }

def storeByte (σ : Shared) (a : WordAddr) (i : Fin 8) (b : BitVec 8) : Shared :=
  σ.store a (setByte (σ.mem a) i b)

/-- `get_clock` returns only values below `VERSION_MASK`; otherwise it loads again. -/
def clockReady (σ : Shared) : Bool := σ.gClock < versionMax

end Shared

inductive ClockPc
  /-- The `fetch_add`. -/
  | add
  /-- The compare-and-swap on `reset_locks_thr`. -/
  | cas
  /-- `reset_versions`: the store of the lock at this position. -/
  | reset (i : LockIdx)
  /-- The store of 1 to the clock. -/
  | storeClock
  /-- The store of 0 to `reset_locks_thr`. -/
  | storeThr
  /-- The load after the reset. -/
  | reload
  /-- The load in the loop that waits for another thread's reset. -/
  | wait
deriving DecidableEq

def ClockPc.step (σ : Shared) (t : TxId) : ClockPc → Shared × (ClockPc ⊕ ℕ)
  | .add =>
      ({ σ with gClock := σ.gClock + 1 },
        if σ.gClock + 1 ≥ versionMax then .inl .cas else .inr (σ.gClock + 1))
  | .cas =>
      if σ.resetLocksThr = 0 then
        ({ σ with resetLocksThr := t.val }, .inl (.reset ⟨0, by decide⟩))
      else (σ, .inl .wait)
  | .reset i =>
      (σ.setLock i 0,
        .inl (if h : i.val + 1 < lockArraySize then .reset ⟨i.val + 1, h⟩ else .storeClock))
  | .storeClock =>
      ({ σ with
          gClock := 1
          log := fun _ => none
          ro := []
          past := σ.past ++ schedule σ.log σ.ro σ.gClock }, .inl .storeThr)
  | .storeThr => ({ σ with resetLocksThr := 0 }, .inl .reload)
  | .reload => (σ, .inr σ.gClock)
  | .wait => (σ, if σ.clockReady then .inr σ.gClock else .inl .wait)

inductive TokenPc
  /-- The load of `tm_token_is_free`. -/
  | load
  /-- The compare-and-swap of `tm_token_try_acquire`. -/
  | cas
deriving DecidableEq

/-- `tm_token_soft_spin`, once the number of aborts has reached its threshold. -/
def TokenPc.step (σ : Shared) (t : TxId) : TokenPc → Shared × (TokenPc ⊕ Bool)
  | .load => (σ, if σ.gTxToken = none then .inl .cas else .inr false)
  | .cas =>
      if σ.gTxToken = none then ({ σ with gTxToken := some t }, .inr true)
      else (σ, .inr false)

namespace Shared

def releaseToken (σ : Shared) : Shared := { σ with gTxToken := none }

def releaseTokenIfHeld (σ : Shared) (t : TxId) : Shared :=
  if σ.gTxToken = some t then { σ with gTxToken := none } else σ

end Shared

inductive TryLockPc
  | load
  | cas (current : Word)
deriving DecidableEq

def TryLockPc.step (σ : Shared) (t : TxId) (ℓ : LockIdx) :
    TryLockPc → Shared × (TryLockPc ⊕ Bool)
  | .load => (σ, if isOwned (σ.locks ℓ) then .inr false else .inl (.cas (σ.locks ℓ)))
  | .cas current =>
      if σ.locks ℓ = current then (σ.setLock ℓ (lockedBy current t), .inr true)
      else (σ, .inr false)

inductive UnlockPc
  /-- The first `is_locked`. -/
  | check
  /-- `get_owner`. -/
  | owner
  /-- The `fetch_and`. -/
  | clear
  /-- The second `is_locked`, which only decides whether a mismatch is counted. -/
  | recheck
deriving DecidableEq

def UnlockPc.step (σ : Shared) (t : TxId) (ℓ : LockIdx) :
    UnlockPc → Shared × (UnlockPc ⊕ Unit)
  | .check => (σ, .inl (if isOwned (σ.locks ℓ) then .owner else .recheck))
  | .owner => (σ, .inl (if ownerOf (σ.locks ℓ) = t.val then .clear else .recheck))
  | .clear => (σ.setLock ℓ (unlocked (σ.locks ℓ)), .inr ())
  | .recheck => (σ, .inr ())

structure ReadLogEntry where
  addr : WordAddr
  observedVersion : ℕ
  observedVal : Word
deriving DecidableEq

/-- The test that makes `validate` return false: the word's lock is held by another
transaction, or newer than what was observed. -/
def ReadLogEntry.stale (r : ReadLogEntry) (t : TxId) (l : Word) : Bool :=
  isOwned l && ownerOf l != t.val || versionOf l > r.observedVersion

structure State (X : Type) where
  shared : Shared
  tx : TxId → X

/-- The side condition of the runs without a reset: the clock stays below its bound. -/
def belowMax {X : Type} (_ : State X) (_ : TxId × TxCall) (s' : State X) : Prop :=
  s'.shared.gClock < versionMax

instance {X : Type} (s : State X) (l : TxId × TxCall) (s' : State X) :
    Decidable (belowMax s l s') :=
  inferInstanceAs (Decidable (_ < _))

def State.step {X : Type} (next : TxId → Shared → X → TxCall → Option (Shared × X))
    (s : State X) (l : TxId × TxCall) : Option (State X) :=
  (next l.1 s.shared (s.tx l.1) l.2).map fun p => ⟨p.1, Function.update s.tx l.1 p.2⟩

/-- The first ids that `thr_counter` hands out. -/
def firstTx : TxId := ⟨1, by decide, by decide⟩

@[inherit_doc firstTx]
def secondTx : TxId := ⟨2, by decide, by decide⟩

@[inherit_doc firstTx]
def thirdTx : TxId := ⟨3, by decide, by decide⟩

/-- The thread `t` goes on with the function it is in, for `n` steps. -/
def taus (t : TxId) (n : ℕ) : List (TxId × TxCall) := List.replicate n (t, .tau)

end TinySTM
