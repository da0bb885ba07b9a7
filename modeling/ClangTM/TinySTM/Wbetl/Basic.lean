import ClangTM.TinySTM.Common

/-!
# TinySTM, write-back with encounter-time locking

Transactions buffer their writes, but take the lock of a word when they first write
it. `commit` takes a commit version from the clock, validates the read set, writes
back byte by byte and releases the locks with the commit version. A word whose lock
the transaction holds is read from memory without an entry in the read set.

A step is one access to the shared state with the local work that follows it;
`validate`, `writeBack`, `release` and `abortLocks` also take a step of their own when
their list is empty. `read_set`, `write_set` and `locks_held` are kept oldest entry
first. The version that `write_word_etl` keeps with a write is left out, as are the
branches that only accesses narrower than a word can take. The fields `hist` and
`holdsToken` of a transaction record what it did and are not read by any step.
-/

namespace TinySTM.Wbetl

open Serial

inductive Extender
  | readWord (a : WordAddr) (l : Word)
  | commit (version : ℕ)
deriving DecidableEq

inductive Validator
  | extend (lastVersion : ℕ) (k : Extender)
  | writeWord (a : WordAddr) (v : Word)
deriving DecidableEq

inductive Attempt
  /-- After the wait for a lock that was found held. -/
  | afterSpin
  /-- The lock was found free. -/
  | first
  /-- After the read set has been validated. -/
  | second
  /-- After the wait for a lock that was lost to another transaction. -/
  | unlockRace
deriving DecidableEq

/-- The calls of `tm_token_soft_spin` in `write_word_etl`: the lock was found held, or
was lost to another transaction. -/
inductive Spinner
  | held
  | lost
deriving DecidableEq

inductive Pc
  | out
  /-- `begin`: the load of the clock. -/
  | beginClock
  | body
  /-- `read_word_etl`: `is_locked_by`. -/
  | readOwn (a : WordAddr)
  /-- `read_word_etl`: the load of a word whose lock the transaction holds. -/
  | readDirect (a : WordAddr)
  /-- `read_word_etl`: the load of the lock. -/
  | readLock (a : WordAddr)
  /-- `read_word_etl`: the load of the word. -/
  | readValue (a : WordAddr) (l : Word)
  /-- `read_word_etl`: the second load of the lock. -/
  | readLockAgain (a : WordAddr) (l value : Word)
  /-- `write_word_etl`: `is_locked`. -/
  | writeLocked (a : WordAddr) (v : Word)
  /-- `write_word_etl`: `get_owner`. -/
  | writeOwner (a : WordAddr) (v : Word)
  /-- `write_word_etl`: `tm_token_soft_spin`. -/
  | token (k : Spinner) (a : WordAddr) (v : Word) (p : TokenPc)
  /-- `write_word_etl`: `is_locked` in the loop that waits for the owner. -/
  | waitLocked (a : WordAddr) (v : Word)
  /-- `write_word_etl`: `get_owner` in that loop. -/
  | waitOwner (a : WordAddr) (v : Word)
  /-- `write_word_etl`: `get_owner` after that loop. -/
  | waitEnd (a : WordAddr) (v : Word)
  /-- `write_word_etl`: `is_locked` in the loop that waits for a lost lock. -/
  | waitFree (a : WordAddr) (v : Word)
  /-- `write_word_etl`: `try_lock`. -/
  | tryLock (k : Attempt) (a : WordAddr) (v : Word) (p : TryLockPc)
  /-- `write_word_etl`: `is_locked_by`, once the lock counts as acquired. -/
  | writeOwned (a : WordAddr) (v : Word)
  /-- `extend`: the load of the clock. -/
  | extendClock (k : Extender)
  /-- `validate`: the entries still to check. -/
  | validate (k : Validator) (rest : List ReadLogEntry)
  /-- `commit`: `increment_clock`. -/
  | increment (p : ClockPc)
  /-- `commit`: the words still to write back, the first one from this byte on. -/
  | writeBack (version : ℕ) (rest : List (WordAddr × Word)) (byteOff : Fin 8)
  /-- `commit`: the locks still to release. -/
  | release (version : ℕ) (rest : List LockIdx)
  /-- `commit`: `tm_token_release`. -/
  | commitToken
  /-- `abort_tx`: the locks still to unlock. -/
  | abortLocks (rest : List LockIdx)
  /-- `abort_tx`: `unlock`. -/
  | abortUnlock (ℓ : LockIdx) (rest : List LockIdx) (p : UnlockPc)
  /-- `abort_tx`: `tm_token_release_if_held`. -/
  | abortToken
deriving DecidableEq

structure Tx where
  pc : Pc := .out
  startVersion : ℕ := 0
  endVersion : ℕ := 0
  commitVersion : ℕ := 0
  active : Bool := false
  readOnly : Bool := true
  abortCount : ℕ := 0
  isRetry : Bool := false
  readSet : List ReadLogEntry := []
  writeSet : List (WordAddr × Word) := []
  locksHeld : List LockIdx := []
  hist : VersionLock.Tx WordAddr Word := {}
  holdsToken : Bool := false

def tokenThreshold : ℕ := 3

/-- The loop of `read_word_etl` that enters a read in the read set: `merge_read` into
the entry of the word, or a new entry. -/
def mergeRead (e : ReadLogEntry) : List ReadLogEntry → List ReadLogEntry
  | [] => [e]
  | r :: rs => if r.addr = e.addr then e :: rs else r :: mergeRead e rs

namespace Tx

def reset (x : Tx) : Tx := { commitVersion := x.commitVersion }

/-- `begin` up to its access. A transaction that is still active, as it is after
`abort_tx`, keeps its snapshot. -/
def begin (x : Tx) : Tx :=
  if x.active then { x with pc := .body } else { x with pc := .beginClock }

def beginAt (x : Tx) (clock : ℕ) : Tx :=
  { x with
    pc := .body
    startVersion := clock
    endVersion := clock
    active := true
    readOnly := true
    abortCount := if x.isRetry then x.abortCount else 0
    isRetry := false }

def abortTx (x : Tx) : Tx := { x with pc := .abortLocks x.locksHeld, hist := {} }

def abortClear (x : Tx) : Tx :=
  { x with
    pc := .abortToken
    readSet := []
    writeSet := []
    locksHeld := []
    abortCount := x.abortCount + 1
    isRetry := true }

/-- `tm_token_soft_spin` up to its first access; without the token its callers
abort. -/
def softSpin (x : Tx) (k : Spinner) (a : WordAddr) (v : Word) : Tx :=
  if x.abortCount < tokenThreshold then x.abortTx else { x with pc := .token k a v .load }

def tokenTrue (x : Tx) (a : WordAddr) (v : Word) : Spinner → Tx
  | .held => { x with pc := .waitLocked a v, holdsToken := true }
  | .lost => { x with pc := .waitFree a v, holdsToken := true }

def readWordEtl (x : Tx) (a : WordAddr) : Tx :=
  match x.writeSet.lookup a with
  | some v => { x with hist := { x.hist with trace := .read a v :: x.hist.trace } }
  | none => { x with pc := .readOwn a }

/-- `read_word_etl` returns the word of a lock that the transaction holds. -/
def readHeld (x : Tx) (a : WordAddr) (l value : Word) : Tx :=
  { x with
    pc := .body
    hist := { x.hist with
      reads := ⟨a, versionOf l, value⟩ :: x.hist.reads
      trace := .read a value :: x.hist.trace } }

def readLoop (x : Tx) (a : WordAddr) (l : Word) : Tx :=
  if isOwned l then x.abortTx else { x with pc := .readValue a l }

def pushRead (x : Tx) (a : WordAddr) (l value : Word) : Tx :=
  { x with
    pc := .body
    readSet := mergeRead ⟨a, versionOf l, value⟩ x.readSet
    hist := { x.hist with
      reads := ⟨a, versionOf l, value⟩ :: x.hist.reads
      trace := .read a value :: x.hist.trace } }

def readCheck (x : Tx) (a : WordAddr) (l l2 value : Word) : Tx :=
  if l ≠ l2 then x.readLoop a l2
  else if versionOf l > x.endVersion then { x with pc := .extendClock (.readWord a l) }
  else x.pushRead a l value

def writeWordEtl (x : Tx) (a : WordAddr) (v : Word) : Tx :=
  match x.writeSet.lookup a with
  | some _ =>
      { x with
        readOnly := false
        writeSet := putBack a v x.writeSet
        hist := { x.hist with trace := .write a v :: x.hist.trace } }
  | none => { x with pc := .writeLocked a v, readOnly := false }

def tryLockFalse (x : Tx) (a : WordAddr) (v : Word) : Attempt → Tx
  | .afterSpin | .unlockRace => x.abortTx
  | .first => { x with pc := .validate (.writeWord a v) x.readSet }
  | .second => x.softSpin .lost a v

def pushWrite (x : Tx) (a : WordAddr) (v : Word) : Tx :=
  { x with
    pc := .body
    writeSet := putBack a v x.writeSet
    locksHeld := if lockOf a ∈ x.locksHeld then x.locksHeld else x.locksHeld ++ [lockOf a]
    hist := { x.hist with trace := .write a v :: x.hist.trace } }

/-- `validate` returns true in `read_word_etl` or `write_word_etl`. -/
def validateTrue (x : Tx) : Validator → Tx
  | .extend lastVersion (.readWord a l) => { x with endVersion := lastVersion }.readLoop a l
  | .extend lastVersion (.commit version) =>
      { x with pc := .writeBack version x.writeSet 0, endVersion := lastVersion }
  | .writeWord a v => { x with pc := .tryLock .second a v .load }

def commit (x : Tx) : Tx :=
  if x.readOnly then { x with pc := .commitToken } else { x with pc := .increment .add }

def incremented (x : Tx) (version : ℕ) : Tx :=
  { x with
    pc := .extendClock (.commit version)
    hist := { x.hist with cv := some version } }

def look (t : TxId) (σ : Shared) (x : Tx) (c : TxCall) : Option Tx :=
  match x.pc, c with
  | .out, .begin => some x.begin
  | .beginClock, .tau => some (if σ.clockReady then x.beginAt σ.gClock else x)
  | .body, .read a => some (x.readWordEtl a)
  | .body, .write a v => some (x.writeWordEtl a v)
  | .body, .commit => some x.commit
  | .body, .abort => some x.abortTx
  | .readOwn a, .tau =>
      some (if isLockedBy (σ.locks (lockOf a)) t then { x with pc := .readDirect a }
        else { x with pc := .readLock a })
  | .readDirect a, .tau => some (x.readHeld a (σ.locks (lockOf a)) (σ.mem a))
  | .readLock a, .tau => some (x.readLoop a (σ.locks (lockOf a)))
  | .readValue a l, .tau => some { x with pc := .readLockAgain a l (σ.mem a) }
  | .readLockAgain a l value, .tau => some (x.readCheck a l (σ.locks (lockOf a)) value)
  | .writeLocked a v, .tau =>
      some (if isOwned (σ.locks (lockOf a)) then { x with pc := .writeOwner a v }
        else { x with pc := .tryLock .first a v .load })
  | .writeOwner a v, .tau =>
      some (if ownerOf (σ.locks (lockOf a)) ≠ t.val then x.softSpin .held a v
        else { x with pc := .writeOwned a v })
  | .waitLocked a v, .tau =>
      some (if isOwned (σ.locks (lockOf a)) then { x with pc := .waitOwner a v }
        else { x with pc := .waitEnd a v })
  | .waitOwner a v, .tau =>
      some (if ownerOf (σ.locks (lockOf a)) ≠ t.val then { x with pc := .waitLocked a v }
        else { x with pc := .waitEnd a v })
  | .waitEnd a v, .tau =>
      some (if ownerOf (σ.locks (lockOf a)) ≠ t.val then
          { x with pc := .tryLock .afterSpin a v .load }
        else { x with pc := .writeOwned a v })
  | .waitFree a v, .tau =>
      some (if isOwned (σ.locks (lockOf a)) then x
        else { x with pc := .tryLock .unlockRace a v .load })
  | .writeOwned a v, .tau =>
      some (if isLockedBy (σ.locks (lockOf a)) t then x.pushWrite a v else x.abortTx)
  | .extendClock k, .tau =>
      some (if σ.clockReady then { x with pc := .validate (.extend σ.gClock k) x.readSet }
        else x)
  | .validate k (r :: rest), .tau =>
      some (if r.stale t (σ.locks (lockOf r.addr)) then x.abortTx
        else { x with pc := .validate k rest })
  | .validate (.extend lastVersion (.readWord a l)) [], .tau =>
      some (x.validateTrue (.extend lastVersion (.readWord a l)))
  | .validate (.writeWord a v) [], .tau => some (x.validateTrue (.writeWord a v))
  | .writeBack version [] _, .tau => some { x with pc := .release version x.locksHeld }
  | .release _ [], .tau => some { x with pc := .commitToken }
  | .abortLocks (ℓ :: rest), .tau => some { x with pc := .abortUnlock ℓ rest .check }
  | .abortLocks [], .tau => some x.abortClear
  | _, _ => none

end Tx

/-- The commit point: the last check of the read set has passed. -/
def commitPoint (σ : Shared) (x : Tx) (lastVersion version : ℕ) : Shared × Tx :=
  ({ σ with log := enter σ.log version x.hist.trace },
    { x.validateTrue (.extend lastVersion (.commit version)) with
      hist := { x.hist with done := true } })

def writeByte (x : Tx) (version : ℕ) (w : WordAddr × Word) (rest : List (WordAddr × Word))
    (i : Fin 8) : Tx :=
  if h : i.val + 1 < 8 then { x with pc := .writeBack version (w :: rest) ⟨i.val + 1, h⟩ }
  else { x with pc := .writeBack version rest 0 }

def commitEnd (σ : Shared) (x : Tx) : Shared × Tx :=
  ({ σ.releaseToken with
      ro := if x.readOnly then (x.endVersion, x.hist.trace) :: σ.ro else σ.ro },
    x.reset)

def next (t : TxId) (σ : Shared) (x : Tx) (c : TxCall) : Option (Shared × Tx) :=
  match x.pc, c with
  | .validate (.extend lastVersion (.commit version)) [], .tau =>
      some (commitPoint σ x lastVersion version)
  | .token k a v p, .tau =>
      match p.step σ t with
      | (σ', .inl p') => some (σ', { x with pc := .token k a v p' })
      | (σ', .inr true) => some (σ', x.tokenTrue a v k)
      | (σ', .inr false) => some (σ', x.abortTx)
  | .tryLock k a v p, .tau =>
      match p.step σ t (lockOf a) with
      | (σ', .inl p') => some (σ', { x with pc := .tryLock k a v p' })
      | (σ', .inr true) => some (σ', { x with pc := .writeOwned a v })
      | (σ', .inr false) => some (σ', x.tryLockFalse a v k)
  | .increment p, .tau =>
      match p.step σ t with
      | (σ', .inl p') => some (σ', { x with pc := .increment p' })
      | (σ', .inr version) => some (σ', x.incremented version)
  | .writeBack version (w :: rest) i, .tau =>
      some (σ.storeByte w.1 i (byteOf w.2 i), writeByte x version w rest i)
  | .release version (ℓ :: rest), .tau =>
      some (σ.setLock ℓ (withVersion version), { x with pc := .release version rest })
  | .commitToken, .tau => some (commitEnd σ x)
  | .abortUnlock ℓ rest p, .tau =>
      match p.step σ t ℓ with
      | (σ', .inl p') => some (σ', { x with pc := .abortUnlock ℓ rest p' })
      | (σ', .inr ()) => some (σ', { x with pc := .abortLocks rest })
  | .abortToken, .tau =>
      some (σ.releaseTokenIfHeld t, { x with pc := .out, holdsToken := false })
  | _, c => (Tx.look t σ x c).map fun x' => (σ, x')

def step : State Tx → TxId × TxCall → Option (State Tx) := State.step next

def init (m₀ : WordAddr → Word) : State Tx where
  shared := { mem := m₀ }
  tx _ := {}

end TinySTM.Wbetl
