import Mathlib.Data.List.Sort
import ClangTM.TinySTM.Common

/-!
# TinySTM, write-back with commit-time locking

Transactions buffer their writes. `commit` takes the locks of the written words in
address order, takes a commit version from the clock, validates the read set, writes
back and releases the locks with the commit version. Reads check the lock of the
word before and after loading it, and extend the snapshot when the word is newer
than it.

A step is one access to the shared state with the local work that follows it;
`validate`, `writeBack`, `acquire`, `release` and `abortLocks` also take a step of
their own when their list is empty. `read_set` and `write_set` are kept oldest entry
first. The version that `write_word_ctl` keeps with a write is left out, as are the
branches that only accesses narrower than a word can take. The field `hist` of a
transaction records what it did and is not read by any step.
-/

namespace TinySTM.Wbctl

open Serial

inductive Extender
  | readWord (a : WordAddr) (l : Word) (spin : ℕ)
  | writeWord (a : WordAddr) (v : Word)
  | commitLock (a : WordAddr) (rest : List WordAddr) (retries : ℕ)
  | gapCheck (version : ℕ)
deriving DecidableEq

inductive Validator
  | extend (lastVersion : ℕ) (k : Extender)
  | writeWord (a : WordAddr) (v : Word)
  | commit (version : ℕ)
deriving DecidableEq

inductive Spinner
  | readWord (a : WordAddr) (l : Word) (spin : ℕ)
  | writeWord (a : WordAddr) (v : Word)
  | commitLock (a : WordAddr) (rest : List WordAddr) (retries : ℕ)
deriving DecidableEq

inductive Pc
  | out
  /-- `begin`: the load of the clock. -/
  | beginClock
  | body
  /-- `read_word_ctl`: the load of the lock. -/
  | readLock (a : WordAddr) (spin : ℕ)
  /-- `read_word_ctl`: the load of the word. -/
  | readValue (a : WordAddr) (l : Word) (spin : ℕ)
  /-- `read_word_ctl`: the second load of the lock. -/
  | readLockAgain (a : WordAddr) (l value : Word) (spin : ℕ)
  /-- `write_word_ctl`: the load of the lock. -/
  | writeLock (a : WordAddr) (v : Word)
  /-- `write_word_ctl`: the second load of the lock. -/
  | writeLockAgain (a : WordAddr) (v l : Word)
  /-- `extend`: the load of the clock. -/
  | extendClock (k : Extender)
  /-- `validate`: the entries still to check. -/
  | validate (k : Validator) (rest : List ReadLogEntry)
  /-- `tm_token_soft_spin`. -/
  | token (k : Spinner) (p : TokenPc)
  /-- `commit`: the load of the clock. -/
  | commitClock
  /-- `commit`: the words whose lock is still to be looked at. -/
  | acquire (rest : List WordAddr)
  /-- `commit`: `try_lock`. -/
  | acquireTry (a : WordAddr) (rest : List WordAddr) (retries : ℕ) (p : TryLockPc)
  /-- `commit`: `increment_clock`. -/
  | increment (p : ClockPc)
  /-- `commit`: the words still to write back. -/
  | writeBack (version : ℕ) (rest : List (WordAddr × Word))
  /-- `commit`: the words whose lock is still to be released. -/
  | release (version : ℕ) (rest : List (WordAddr × Word))
  /-- `commit`: the load of the version of a lock to be released. -/
  | releaseVersion (version : ℕ) (a : WordAddr) (rest : List (WordAddr × Word))
  /-- `commit`: `unlock`, when the lock is newer than the commit. -/
  | releaseUnlock (version : ℕ) (a : WordAddr) (rest : List (WordAddr × Word)) (p : UnlockPc)
  /-- `commit`: `unlock_with_version`. -/
  | releaseStore (version : ℕ) (a : WordAddr) (rest : List (WordAddr × Word))
  /-- `commit`: `tm_token_release`. -/
  | commitToken (version : ℕ)
  /-- `abort_tx`: the locks still to unlock. -/
  | abortLocks (rest : List LockIdx)
  /-- `abort_tx`: `unlock`. -/
  | abortUnlock (ℓ : LockIdx) (rest : List LockIdx) (p : UnlockPc)
  /-- `abort_tx`: `tm_token_release_if_held`. -/
  | abortToken
deriving DecidableEq

structure Tx where
  pc : Pc := .out
  startVersion : ℕ := 0
  endVersion : ℕ := 0
  commitVersion : ℕ := 0
  active : Bool := false
  readOnly : Bool := true
  abortCount : ℕ := 0
  isRetry : Bool := false
  readSet : List ReadLogEntry := []
  writeSet : List (WordAddr × Word) := []
  locksHeld : List LockIdx := []
  hist : VersionLock.Tx WordAddr Word := {}

def tokenThreshold : ℕ := 5

def readSpinLimit : ℕ := 5000

def lockRetryLimit : ℕ := 1000

namespace Tx

/-- `Transaction::reset`, after `commit` has set `commit_version`. -/
def reset (_ : Tx) (version : ℕ) : Tx := { commitVersion := version }

/-- `begin` up to its access. A transaction that is still active, as it is after
`abort_tx`, keeps its snapshot. -/
def begin (x : Tx) : Tx :=
  if x.active then { x with pc := .body }
  else { x with pc := .beginClock, readSet := [], writeSet := [], locksHeld := [] }

def beginAt (x : Tx) (clock : ℕ) : Tx :=
  { x with
    pc := .body
    startVersion := clock
    endVersion := clock
    active := true
    readOnly := true
    abortCount := if x.isRetry then x.abortCount else 0
    isRetry := false }

def abortTx (x : Tx) : Tx := { x with pc := .abortLocks x.locksHeld }

def abortClear (x : Tx) : Tx :=
  { x with
    pc := .abortToken
    readSet := []
    writeSet := []
    locksHeld := []
    abortCount := x.abortCount + 1
    isRetry := true
    hist := {} }

/-- `tm_token_soft_spin` up to its first access; without the token its callers
abort. -/
def softSpin (x : Tx) (k : Spinner) : Tx :=
  if x.abortCount < tokenThreshold then x.abortTx else { x with pc := .token k .load }

def readLoop (x : Tx) (a : WordAddr) (l : Word) (spin : ℕ) : Tx :=
  if isOwned l then
    if spin + 1 > readSpinLimit then x.abortTx else { x with pc := .readLock a (spin + 1) }
  else { x with pc := .readValue a l spin }

def readWordCtl (x : Tx) (a : WordAddr) : Tx :=
  match x.writeSet.lookup a with
  | some v => { x with hist := { x.hist with trace := .read a v :: x.hist.trace } }
  | none => { x with pc := .readLock a 0 }

def pushRead (x : Tx) (a : WordAddr) (l value : Word) : Tx :=
  { x with
    pc := .body
    readSet := x.readSet ++ [⟨a, versionOf l, value⟩]
    hist := { x.hist with
      reads := ⟨a, versionOf l, value⟩ :: x.hist.reads
      trace := .read a value :: x.hist.trace } }

def readCheck (x : Tx) (a : WordAddr) (l l2 value : Word) (spin : ℕ) : Tx :=
  if l ≠ l2 then x.readLoop a l2 spin
  else if versionOf l > x.endVersion then { x with pc := .extendClock (.readWord a l spin) }
  else x.pushRead a l value

def writeWordCtl (x : Tx) (a : WordAddr) (v : Word) : Tx :=
  match x.writeSet.lookup a with
  | some _ =>
      { x with
        readOnly := false
        writeSet := putBack a v x.writeSet
        hist := { x.hist with trace := .write a v :: x.hist.trace } }
  | none => { x with pc := .writeLock a v, readOnly := false }

def writeCheck (x : Tx) (a : WordAddr) (v l : Word) : Tx :=
  if isOwned l then { x with pc := .validate (.writeWord a v) x.readSet }
  else { x with pc := .writeLockAgain a v l }

/-- The end of `write_word_ctl`. The word enters the read set too, with the value
that is going to be written. -/
def pushWrite (x : Tx) (a : WordAddr) (v l : Word) : Tx :=
  { x with
    pc := .body
    readSet := x.readSet ++ [⟨a, versionOf l, v⟩]
    writeSet := putBack a v x.writeSet
    hist := { x.hist with trace := .write a v :: x.hist.trace } }

def writeCheckAgain (x : Tx) (a : WordAddr) (v l l2 : Word) : Tx :=
  if l ≠ l2 then { x with pc := .writeLock a v }
  else if versionOf l2 > x.endVersion then { x with pc := .extendClock (.writeWord a v) }
  else x.pushWrite a v l2

def extendTrue (x : Tx) : Extender → Tx
  | .readWord a l spin => x.readLoop a l spin
  | .writeWord a v => { x with pc := .writeLock a v }
  | .commitLock a rest retries =>
      if retries + 1 ≥ lockRetryLimit then x.abortTx
      else { x with pc := .acquireTry a rest (retries + 1) .load }
  | .gapCheck version => { x with pc := .validate (.commit version) x.readSet }

def extendFalse (x : Tx) : Extender → Tx
  | .readWord a l spin => x.softSpin (.readWord a l spin)
  | .writeWord _ _ => x.abortTx
  | .commitLock a rest retries => x.softSpin (.commitLock a rest retries)
  | .gapCheck _ => x.abortTx

def validateFalse (x : Tx) : Validator → Tx
  | .extend _ k => x.extendFalse k
  | .writeWord a v => x.softSpin (.writeWord a v)
  | .commit _ => x.abortTx

/-- `validate` returns true in `extend` or `write_word_ctl`. -/
def validateTrue (x : Tx) : Validator → Tx
  | .extend lastVersion k => { x with endVersion := lastVersion }.extendTrue k
  | .writeWord a v => { x with pc := .writeLock a v }
  | .commit version => { x with pc := .writeBack version x.writeSet }

def tokenTrue (x : Tx) : Spinner → Tx
  | .readWord a l spin => x.readLoop a l spin
  | .writeWord a v => { x with pc := .writeLock a v }
  | .commitLock a rest retries => { x with pc := .acquireTry a rest retries .load }

/-- `commit` after its load of the clock: the words are locked in address order. -/
def commitStart (x : Tx) (clock : ℕ) : Tx :=
  if x.readOnly then { x with pc := .commitToken clock }
  else { x with
    pc := .acquire ((x.writeSet.map Prod.fst).insertionSort fun a b => a.val ≤ b.val) }

/-- `commit` with a commit version that is not below the snapshot. -/
def checkGap (x : Tx) (version : ℕ) : Tx :=
  if version ≠ x.endVersion + 1 then { x with pc := .extendClock (.gapCheck version) }
  else { x with pc := .validate (.commit version) x.readSet }

def incremented (x : Tx) (version : ℕ) : Tx :=
  if version < x.endVersion then { x.abortTx with hist := {} }
  else { x with hist := { x.hist with cv := some version } }.checkGap version

def look (t : TxId) (σ : Shared) (x : Tx) (c : TxCall) : Option Tx :=
  match x.pc, c with
  | .out, .begin => some x.begin
  | .beginClock, .tau => some (if σ.clockReady then x.beginAt σ.gClock else x)
  | .body, .read a => some (x.readWordCtl a)
  | .body, .write a v => some (x.writeWordCtl a v)
  | .body, .commit => some { x with pc := .commitClock }
  | .body, .abort => some x.abortTx
  | .readLock a spin, .tau => some (x.readLoop a (σ.locks (lockOf a)) spin)
  | .readValue a l spin, .tau => some { x with pc := .readLockAgain a l (σ.mem a) spin }
  | .readLockAgain a l value spin, .tau =>
      some (x.readCheck a l (σ.locks (lockOf a)) value spin)
  | .writeLock a v, .tau => some (x.writeCheck a v (σ.locks (lockOf a)))
  | .writeLockAgain a v l, .tau => some (x.writeCheckAgain a v l (σ.locks (lockOf a)))
  | .extendClock k, .tau =>
      some (if σ.clockReady then { x with pc := .validate (.extend σ.gClock k) x.readSet }
        else x)
  | .validate k (r :: rest), .tau =>
      some (if r.stale t (σ.locks (lockOf r.addr)) then x.validateFalse k
        else { x with pc := .validate k rest })
  | .validate (.extend lastVersion k) [], .tau => some (x.validateTrue (.extend lastVersion k))
  | .validate (.writeWord a v) [], .tau => some (x.validateTrue (.writeWord a v))
  | .commitClock, .tau => some (if σ.clockReady then x.commitStart σ.gClock else x)
  | .acquire (a :: rest), .tau =>
      some (if ownerOf (σ.locks (lockOf a)) = t.val then { x with pc := .acquire rest }
        else { x with pc := .acquireTry a rest 0 .load })
  | .acquire [], .tau => some { x with pc := .increment .add }
  | .writeBack version [], .tau => some { x with pc := .release version x.writeSet }
  | .release version (w :: rest), .tau =>
      some (if isLockedBy (σ.locks (lockOf w.1)) t then
          { x with pc := .releaseVersion version w.1 rest }
        else { x with pc := .release version rest })
  | .releaseVersion version a rest, .tau =>
      some (if versionOf (σ.locks (lockOf a)) > version then
          { x with pc := .releaseUnlock version a rest .check }
        else { x with pc := .releaseStore version a rest })
  | .release version [], .tau => some { x with pc := .commitToken version, locksHeld := [] }
  | .abortLocks (ℓ :: rest), .tau => some { x with pc := .abortUnlock ℓ rest .check }
  | .abortLocks [], .tau => some x.abortClear
  | _, _ => none

end Tx

/-- The commit point: the last check of the read set has passed. -/
def commitPoint (σ : Shared) (x : Tx) (version : ℕ) : Shared × Tx :=
  ({ σ with log := enter σ.log version x.hist.trace },
    { x.validateTrue (.commit version) with hist := { x.hist with done := true } })

def commitEnd (σ : Shared) (x : Tx) (version : ℕ) : Shared × Tx :=
  ({ σ.releaseToken with
      ro := if x.readOnly then (x.endVersion, x.hist.trace) :: σ.ro else σ.ro },
    x.reset version)

def next (t : TxId) (σ : Shared) (x : Tx) (c : TxCall) : Option (Shared × Tx) :=
  match x.pc, c with
  | .validate (.commit version) [], .tau => some (commitPoint σ x version)
  | .token k p, .tau =>
      match p.step σ t with
      | (σ', .inl p') => some (σ', { x with pc := .token k p' })
      | (σ', .inr true) => some (σ', x.tokenTrue k)
      | (σ', .inr false) => some (σ', x.abortTx)
  | .acquireTry a rest retries p, .tau =>
      match p.step σ t (lockOf a) with
      | (σ', .inl p') => some (σ', { x with pc := .acquireTry a rest retries p' })
      | (σ', .inr true) =>
          some (σ', { x with pc := .acquire rest, locksHeld := x.locksHeld ++ [lockOf a] })
      | (σ', .inr false) =>
          some (σ', { x with pc := .extendClock (.commitLock a rest retries) })
  | .increment p, .tau =>
      match p.step σ t with
      | (σ', .inl p') => some (σ', { x with pc := .increment p' })
      | (σ', .inr version) => some (σ', x.incremented version)
  | .writeBack version (w :: rest), .tau =>
      some (σ.store w.1 w.2, { x with pc := .writeBack version rest })
  | .releaseUnlock version a rest p, .tau =>
      match p.step σ t (lockOf a) with
      | (σ', .inl p') => some (σ', { x with pc := .releaseUnlock version a rest p' })
      | (σ', .inr ()) => some (σ', { x with pc := .release version rest })
  | .releaseStore version a rest, .tau =>
      some (σ.setLock (lockOf a) (withVersion version), { x with pc := .release version rest })
  | .commitToken version, .tau => some (commitEnd σ x version)
  | .abortUnlock ℓ rest p, .tau =>
      match p.step σ t ℓ with
      | (σ', .inl p') => some (σ', { x with pc := .abortUnlock ℓ rest p' })
      | (σ', .inr ()) => some (σ', { x with pc := .abortLocks rest })
  | .abortToken, .tau => some (σ.releaseTokenIfHeld t, { x with pc := .out })
  | _, c => (Tx.look t σ x c).map fun x' => (σ, x')

def step : State Tx → TxId × TxCall → Option (State Tx) := State.step next

def init (m₀ : WordAddr → Word) : State Tx where
  shared := { mem := m₀ }
  tx _ := {}

end TinySTM.Wbctl
