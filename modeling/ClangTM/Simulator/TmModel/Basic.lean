import Mathlib.Data.List.Dedup
import Mathlib.Data.List.Sort
import ClangTM.Memory
import ClangTM.Serial.CommitLog
import ClangTM.Transition.Run

/-!
# The TM model of the simulator

`TmModel` of `tm_model.rs`: a time-based transactional memory in which every call is one step.
It keeps versions and no memory, so that a read returns the version of the lock of its word.
The bounded loops of the source are recursions on the number of iterations left.

The counters of validations, iterations and extensions are only added to, and are left out. A
thread that the map of transactions does not know behaves as one with a new `TxState`.

The fields `past`, `log` and `ro` record what happened and are not read by any call: `past n` is
the versions of the locks when the clock was last `n`, `log` the transactions that committed
with writes, by commit version, and `ro` those that committed as read-only, with their
`end_version`.
-/

namespace Simulator

open Serial Transition

def lockTableBits : ℕ := 14

def lockTableSize : ℕ := 1 <<< lockTableBits

def ownedBits : ℕ := 2

def incarnationBits : ℕ := 3

def threadBits : ℕ := 13

def lockBits : ℕ := ownedBits + incarnationBits

def metaBits : ℕ := lockBits + threadBits

def versionMask : Word := BitVec.ofNat 64 (1 <<< (64 - metaBits) - 1)

def threadMask : Word := BitVec.ofNat 64 (1 <<< threadBits - 1)

def spinIterations : ℕ := 5000

namespace LockWord

def new (version : Word) : Word := version <<< metaBits

def isLocked (l : Word) : Bool := l &&& 3 != 0

def isWriteLocked (l : Word) : Bool := l &&& 1 != 0

def owner (l : Word) : Word := (l >>> lockBits) &&& threadMask

def version (l : Word) : Word := (l >>> metaBits) &&& versionMask

def setVersion (l v : Word) : Word := (l &&& ~~~(versionMask <<< metaBits)) ||| (v <<< metaBits)

def lockedBy (l tid : Word) : Word :=
  ((l ||| 1) &&& ~~~(threadMask <<< lockBits)) ||| (tid <<< lockBits)

def tryLock (l tid : Word) : Option Word :=
  if isLocked l then none else some (lockedBy l tid)

def unlockOwner (l tid : Word) : Word :=
  if owner l != tid then l else l &&& ~~~(3 ||| (threadMask <<< lockBits))

def unlockWithVersion (l tid version : Word) : Word := unlockOwner (setVersion l version) tid

end LockWord

abbrev LockIdx := Fin 16384

/-- A thread id that fits the owner field of a lock. -/
abbrev Tid := Fin 8192

def addrToLockIdx (addr : Word) : LockIdx where
  val := ((addr >>> 3) &&& BitVec.ofNat 64 (lockTableSize - 1)).toNat
  isLt := by
    rw [BitVec.toNat_and]
    exact Nat.lt_of_le_of_lt Nat.and_le_right (by decide)

structure ReadEntry where
  addr : Word
  observedVersion : Word
deriving DecidableEq

structure WriteEntry where
  addr : Word
  newVal : Word
deriving DecidableEq

structure TxState where
  active : Bool := false
  readOnly : Bool := true
  startVersion : Word := 0
  endVersion : Word := 0
  readSet : List ReadEntry := []
  writeSet : List WriteEntry := []
  locksHeld : List LockIdx := []

inductive AbortReason
  | unspecified
  | commitLockAbort
  | commitLockTimeout
  | commitValidateFail
  | endValidateFail
deriving DecidableEq

def AbortReason.text : AbortReason → String
  | .unspecified => "unspecified"
  | .commitLockAbort => "commit_lock_abort"
  | .commitLockTimeout => "commit_lock_timeout"
  | .commitValidateFail => "commit_validate_fail"
  | .endValidateFail => "end_validate_fail"

inductive TmError
  | readOutsideTransaction
  | readValidateFail
  | readSpinTimeout
  | writeOutsideTransaction
  | writeLockValidateFail
  | writeVersionExtensionFail
  | writeSpinTimeout
  | commitWithoutActiveTx
  | commitAborted (reason : AbortReason)
  | abortConflict
deriving DecidableEq

def TmError.text : TmError → String
  | .readOutsideTransaction => "read outside transaction"
  | .readValidateFail => "read_validate_fail"
  | .readSpinTimeout => "read_spin_timeout"
  | .writeOutsideTransaction => "write outside transaction"
  | .writeLockValidateFail => "write_lock_validate_fail"
  | .writeVersionExtensionFail => "write_version_extension_fail"
  | .writeSpinTimeout => "write_spin_timeout"
  | .commitWithoutActiveTx => "commit without active tx"
  | .commitAborted reason => reason.text
  | .abortConflict => "abort_conflict"

structure TmModel where
  globalClock : Word := 1
  locks : LockIdx → Word := fun _ => LockWord.new 0
  txStates : Tid → TxState := fun _ => {}
  aborts : ℕ := 0
  commits : ℕ := 0
  committedValues : Word → Option Word := fun _ => none
  abortReasons : AbortReason → ℕ := fun _ => 0
  past : ℕ → LockIdx → ℕ := fun _ _ => 0
  log : ℕ → Option (Trace LockIdx ℕ) := fun _ => none
  ro : List (ℕ × Trace LockIdx ℕ) := []

/-- What a transaction has read: the versions of locks. -/
def TxState.reads (x : TxState) : Trace LockIdx ℕ :=
  x.readSet.map fun r => .read (addrToLockIdx r.addr) r.observedVersion.toNat

/-- What it has written when it commits with the version `c`. -/
def TxState.writes (x : TxState) (c : ℕ) : Trace LockIdx ℕ :=
  x.writeSet.map fun w => .write (addrToLockIdx w.addr) c

namespace TmModel

variable (s : TmModel) (t : Tid)

def tidWord (t : Tid) : Word := BitVec.ofNat 64 t

def setTx (x : TxState) : TmModel := { s with txStates := Function.update s.txStates t x }

/-- Applies a function to the locks of a list, one after another. -/
def mapLocks (f : Word → Word) (held : List LockIdx) : TmModel :=
  { s with locks := held.foldl (fun locks li => Function.update locks li (f (locks li))) s.locks }

def validateReadSet : Bool :=
  (s.txStates t).readSet.all fun r =>
    let l := s.locks (addrToLockIdx r.addr)
    !(LockWord.isWriteLocked l && LockWord.owner l != tidWord t ||
      decide (r.observedVersion < LockWord.version l))

def tmBegin : TmModel :=
  s.setTx t
    { active := true, readOnly := true, startVersion := s.globalClock
      endVersion := s.globalClock }

def readLoop (s : TmModel) (t : Tid) (addr : Word) : ℕ → Except TmError Word × TmModel
  | 0 => (.error .readSpinTimeout, s)
  | n + 1 =>
      let l₁ := s.locks (addrToLockIdx addr)
      if LockWord.isWriteLocked l₁ then readLoop s t addr n
      else
        let l₂ := s.locks (addrToLockIdx addr)
        if l₁ ≠ l₂ then readLoop s t addr n
        else
          let x := s.txStates t
          if x.endVersion < LockWord.version l₁ then
            if s.validateReadSet t then
              readLoop (s.setTx t { x with endVersion := s.globalClock }) t addr n
            else (.error .readValidateFail, s)
          else (.ok (LockWord.version l₁),
            s.setTx t { x with readSet := x.readSet ++ [⟨addr, LockWord.version l₁⟩] })

def tmRead (addr : Word) : Except TmError Word × TmModel :=
  if !(s.txStates t).active then (.error .readOutsideTransaction, s)
  else
    match (s.txStates t).writeSet.find? fun w => w.addr == addr with
    | some w => (.ok w.newVal, s)
    | none => readLoop s t addr spinIterations

def writeLoop (s : TmModel) (t : Tid) (addr val : Word) : ℕ → Except TmError Unit × TmModel
  | 0 => (.error .writeSpinTimeout, s)
  | n + 1 =>
      let l₁ := s.locks (addrToLockIdx addr)
      if LockWord.isWriteLocked l₁ && LockWord.owner l₁ != tidWord t then
        if s.validateReadSet t then writeLoop s t addr val n
        else (.error .writeLockValidateFail, s)
      else
        let l₂ := s.locks (addrToLockIdx addr)
        if l₁ ≠ l₂ then writeLoop s t addr val n
        else
          let x := s.txStates t
          if x.endVersion < LockWord.version l₂ then
            if s.validateReadSet t then
              writeLoop (s.setTx t { x with endVersion := s.globalClock }) t addr val n
            else (.error .writeVersionExtensionFail, s)
          else (.ok (),
            s.setTx t
              { x with
                writeSet := x.writeSet ++ [⟨addr, val⟩]
                readSet := x.readSet ++ [⟨addr, LockWord.version l₂⟩] })

def updateEntry (addr val : Word) : List WriteEntry → List WriteEntry
  | [] => []
  | w :: ws => if w.addr == addr then { w with newVal := val } :: ws else
      w :: updateEntry addr val ws

def tmWrite (addr val : Word) : Except TmError Unit × TmModel :=
  let x := s.txStates t
  if !x.active then (.error .writeOutsideTransaction, s)
  else if x.writeSet.any fun w => w.addr == addr then
    (.ok (),
      s.setTx t { x with readOnly := false, writeSet := updateEntry addr val x.writeSet })
  else writeLoop (s.setTx t { x with readOnly := false }) t addr val spinIterations

def tmAbortReason (reason : AbortReason) : TmModel :=
  let x := s.txStates t
  let s₁ := s.mapLocks (LockWord.unlockOwner · (tidWord t)) x.locksHeld
  { s₁.setTx t { x with readSet := [], writeSet := [], locksHeld := [], active := false } with
    aborts := s.aborts + 1
    abortReasons := Function.update s.abortReasons reason (s.abortReasons reason + 1) }

def tmAbort : TmModel := s.tmAbortReason t .unspecified

/-- The spin of `tm_commit` on one lock: the table after the lock was taken, or the reason to
abort. -/
def acquire (s : TmModel) (t : Tid) (li : LockIdx) : ℕ → Except AbortReason TmModel
  | 0 => .error .commitLockTimeout
  | n + 1 =>
      match LockWord.tryLock (s.locks li) (tidWord t) with
      | some l => .ok { s with locks := Function.update s.locks li l }
      | none => if s.validateReadSet t then acquire s t li n else .error .commitLockAbort

/-- Phase 1 of `tm_commit`: takes the locks of the addresses, until one of them fails. -/
def acquireAll (s : TmModel) (t : Tid) (held : List LockIdx) :
    List Word → TmModel × List LockIdx × Option AbortReason
  | [] => (s, held, none)
  | addr :: addrs =>
      match acquire s t (addrToLockIdx addr) spinIterations with
      | .ok s' => acquireAll s' t (held ++ [addrToLockIdx addr]) addrs
      | .error reason => (s, held, some reason)

def commitAbort (held : List LockIdx) (reason : AbortReason) : TmModel :=
  (s.mapLocks (LockWord.unlockOwner · (tidWord t)) held).tmAbortReason t reason

def commitEnd : TmModel :=
  { s.setTx t
      { s.txStates t with active := false, readSet := [], writeSet := [], locksHeld := [] } with
    commits := s.commits + 1 }

/-- Phase 4 of `tm_commit`. -/
def writeBack (held : List LockIdx) : TmModel :=
  let x := s.txStates t
  { s.mapLocks (LockWord.unlockWithVersion · (tidWord t) s.globalClock) held with
    committedValues :=
      x.writeSet.foldl (fun m w => Function.update m w.addr (some w.newVal)) s.committedValues
    log := enter s.log s.globalClock.toNat
      (x.writes s.globalClock.toNat ++ x.reads) }

/-- Phase 2 of `tm_commit`: notes the locks held, and bumps the clock. -/
def bumpClock (held : List LockIdx) : TmModel :=
  { s.setTx t { s.txStates t with locksHeld := held } with globalClock := s.globalClock + 1 }

/-- `tm_commit` from phase 2 on, when the locks are held. -/
def commitHeld (held : List LockIdx) : Except TmError Unit × TmModel :=
  let s₁ := s.bumpClock t held
  if s₁.validateReadSet t then (.ok (), (s₁.writeBack t held).commitEnd t)
  else (.error (.commitAborted .commitValidateFail),
    s₁.commitAbort t held .commitValidateFail)

def sortedAddrs (x : TxState) : List Word :=
  ((x.writeSet.map WriteEntry.addr).insertionSort (· ≤ ·)).dedup

def tmCommit : Except TmError Unit × TmModel :=
  let x := s.txStates t
  if !x.active then (.error .commitWithoutActiveTx, s)
  else if x.readOnly then
    (.ok (), { s with ro := (x.endVersion.toNat, x.reads) :: s.ro }.commitEnd t)
  else
    match acquireAll s t [] (sortedAddrs x) with
    | (s₁, held, none) => s₁.commitHeld t held
    | (s₁, held, some reason) => (.error (.commitAborted reason), s₁.commitAbort t held reason)

def tmEnd : Except TmError Unit × TmModel :=
  if s.validateReadSet t then s.tmCommit t
  else (.error .abortConflict, s.tmAbortReason t .endValidateFail)

/-- Notes the versions of the locks for the value of the clock. -/
def note : TmModel :=
  { s with
    past := Function.update s.past s.globalClock.toNat fun li =>
      (LockWord.version (s.locks li)).toNat }

inductive Call
  | tmBegin
  | tmRead (addr : Word)
  | tmWrite (addr val : Word)
  | tmCommit
  | tmEnd
  | tmAbort

def call (c : Call) : TmModel :=
  match c with
  | .tmBegin => s.tmBegin t
  | .tmRead addr => (s.tmRead t addr).2
  | .tmWrite addr val => (s.tmWrite t addr val).2
  | .tmCommit => (s.tmCommit t).2
  | .tmEnd => (s.tmEnd t).2
  | .tmAbort => s.tmAbort t

/-- One step: a call, and what `past` records of it. -/
def step (l : Tid × Call) : Option TmModel := some (s.call l.1 l.2).note

def new : TmModel := {}

end TmModel

end Simulator
