import Mathlib.Data.List.Sort
import Mathlib.Data.List.Dedup
import Mathlib.Data.List.Destutter
import ClangTM.Certify.Basic
import ClangTM.Rust.Lock
import ClangTM.Serial.RedoLog
import ClangTM.Transition.Threads

/-!
# TinySTM in Rust

The crate `tinystm` with its three variants: WBCTL takes the locks at commit time, WBETL
at the first write, and WT also writes to memory at once and keeps an undo log. A lock has
a version of its own, which `unlock_exclusive` increments; the clock is compared with it
but, except in WT, never stored in it. An abort only sets a flag, which `tm_commit` looks
at.

Every access to the clock, to a lock or to a word of memory is a step of its own. The label
`weak` is a compare-and-swap that fails although the values agree. A read or write of an
address in the write set with another width ends in `unreachable!`; such a thread is
`panicked`.

Not read by any step are the fields `book` and `hist`, in which the moves of the certifying
protocol are recorded, and `settled` and `seen`: the contents of memory as the committed
transactions left them, and the values that a transaction has read from memory, with what
was settled there at that time.
-/

namespace Rust.TinySTM

open Certify Serial Transition

inductive Variant
  | wbctl
  | wbetl
  | wt
deriving DecidableEq

/-- How often the loops that wait for a lock look at it, in the variants that give up. -/
def Variant.spinLimit : Variant → Option ℕ
  | .wbctl => none
  | .wbetl | .wt => some 5000

/-- How `write_word` of WT comes to store to memory: the address is in the write set, its
lock is held already, or its lock has just been taken. -/
inductive Through
  | again
  | sameLock (version : Word)
  | newLock (version : Word)
deriving DecidableEq

/-- The next access of a thread. What follows the `|`s of a function is what it has in its
local variables. -/
inductive Pc (K : Type)
  | out
  /-- `tm_begin`: the load of the clock. -/
  | beginClock
  | body
  /-- After a panic. -/
  | panicked
  /-- `read_word`: `is_locked`. -/
  | readLocked (k : K) (spins : ℕ)
  /-- `read_word`: the load after the loop has run out. -/
  | readRaw (k : K)
  /-- `read_word`: the first `read_version`. -/
  | readVersion (k : K)
  /-- `read_word`: the load of the value. -/
  | readValue (k : K) (version : Word)
  /-- `read_word`: the second `read_version`; `current` is what was settled at the load. -/
  | readAgain (k : K) (version value current : Word)
  /-- `snapshot_extend`: `gc_snapshot`. -/
  | extendClock (k : K)
  /-- `snapshot_extend`: the entries still to validate. -/
  | extendCheck (k : K) (last : Word) (rest : List (K × Word))
  /-- `write_word`: `is_locked`. -/
  | writeLocked (k : K) (v : Word) (spins : ℕ)
  /-- `write_word`: `read_version`. -/
  | writeVersion (k : K) (v : Word)
  /-- `write_word`: the load of `try_lock_exclusive`. -/
  | tryLock (k : K) (v version : Word) (spins : ℕ)
  /-- `write_word`: its compare-and-swap. -/
  | tryLockCas (k : K) (v version : Word) (spins : ℕ) (cur : Word)
  /-- `write_word`: `is_locked` after a failed attempt. -/
  | retryLocked (k : K) (v version : Word) (spins : ℕ)
  /-- `write_word`: `read_version` after a failed attempt. -/
  | retryVersion (k : K) (v version : Word) (spins : ℕ)
  /-- `write_word` of WT: the load of the old value. -/
  | oldValue (k : K) (v : Word) (how : Through)
  /-- `write_word` of WT: `version_at_index`. -/
  | oldVersion (k : K) (v version old : Word)
  /-- `write_word` of WT: the store. -/
  | storeThrough (k : K) (v : Word) (how : Through) (old oldVer : Word)
  /-- `lock_write_addrs`: the load of `try_lock_exclusive`. -/
  | lock (idx : LockIdx) (rest held : List LockIdx)
  /-- `lock_write_addrs`: its compare-and-swap. -/
  | lockCas (cur : Word) (idx : LockIdx) (rest held : List LockIdx)
  /-- `tm_commit`: `gc_tick`. -/
  | tick (held : List LockIdx)
  /-- `tm_commit`: the entries still to validate. -/
  | validate (rest : List (K × Word)) (held : List LockIdx) (ts : Word)
  /-- `tm_commit`: the words still to write. -/
  | writeBack (rest : List (K × Word)) (held : List LockIdx)
  /-- `unlock_indices`: the load of `unlock_exclusive`. -/
  | unlock (rest : List LockIdx) (result : Option Bool)
  /-- `unlock_indices`: its store. -/
  | unlockStore (ver : Word) (idx : LockIdx) (rest : List LockIdx) (result : Option Bool)
  /-- The undo log still to apply. -/
  | undo (rest : List (K × Word)) (result : Option Bool)
  /-- `unlock_indices_restore` and `unlock_indices_stamp`. -/
  | unlockTo (rest : List (LockIdx × Word)) (result : Option Bool)

/-- A value that was read from memory, and what was settled there. -/
structure SeenValue (K : Type) where
  cell : K
  value : Word
  settled : Word
deriving DecidableEq

/-- A thread: its program counter, its `TxState`, and what `tm_commit` returned, until the
next transaction begins. -/
structure Tx (K : Type) where
  pc : Pc K := .out
  readSet : List (K × Word) := []
  writeSet : List (K × Word) := []
  writeBacks : List (K × Word) := []
  undoBacks : List (K × Word) := []
  lockedOldVersions : List (LockIdx × Word) := []
  startVersion : Word := 0
  endVersion : Word := 0
  aborted : Bool := false
  lockedAddrs : List LockIdx := []
  committed : Option Bool := none
  hist : VersionLock.Tx K Word := {}
  seen : List (SeenValue K) := []

structure Shared (K M T : Type) where
  gClock : Word := 0
  locks : LockIdx → Word := fun _ => 0
  mem : M
  book : Book K Word LockIdx T := .empty 0
  settled : K → Word

section Sets

variable {K M : Type} [Layout K M]

def lockOf (k : K) : LockIdx := lockIndex (Layout.addr k)

def wsGet (ws : List (K × Word)) (k : K) : Option (K × Word) :=
  ws.find? fun e => Layout.addr e.1 = Layout.addr k

def wsWrite (k : K) (v : Word) : List (K × Word) → List (K × Word)
  | [] => [(k, v)]
  | e :: ws => if Layout.addr e.1 = Layout.addr k then (k, v) :: ws else e :: wsWrite k v ws

/-- `sort_unstable` and `dedup` of positions. -/
def sortDedup (idxs : List LockIdx) : List LockIdx :=
  (idxs.insertionSort fun i j => i.toNat ≤ j.toNat).dedup

/-- `sort_unstable` of positions with versions, and `dedup_by` the position. -/
def sortDedupFst (old : List (LockIdx × Word)) : List (LockIdx × Word) :=
  (old.insertionSort fun p q =>
    p.1.toNat < q.1.toNat ∨ p.1 = q.1 ∧ p.2.toNat ≤ q.2.toNat).destutter fun p q => p.1 ≠ q.1

end Sets

namespace Tx

variable {K M : Type} [DecidableEq K] [Layout K M] (d : Variant) (x : Tx K)

def begin (clock : Word) : Tx K := { pc := .body, startVersion := clock, endVersion := clock }

def finish (result : Option Bool) : Tx K := { committed := result, seen := x.seen }

/-- A conflict: the transaction goes on with its flag set. -/
def setAborted (pc : Pc K) : Tx K := { x with pc := pc, aborted := true }

def readWord (k : K) : Tx K :=
  match wsGet x.writeSet k with
  | some e =>
      if e.1 = k then
        if x.aborted then x else { x with hist.trace := .read k e.2 :: x.hist.trace }
      else { x with pc := .panicked }
  | none => { x with pc := .readLocked k 0 }

def readLocked (k : K) (spins : ℕ) (w : Word) : Tx K :=
  if isLocked w then
    if lockOf k ∈ x.lockedAddrs then { x with pc := .readVersion k }
    else
      match d.spinLimit with
      | none => x
      | some n =>
          if n < spins + 1 then x.setAborted (.readRaw k)
          else { x with pc := .readLocked k (spins + 1) }
  else { x with pc := .readVersion k }

def noteRead (k : K) (version value current : Word) : Tx K :=
  if x.aborted then { x with pc := .body, readSet := x.readSet ++ [(k, version)] }
  else
    { x with
      pc := .body
      readSet := x.readSet ++ [(k, version)]
      hist.reads := ⟨k, version.toNat, value⟩ :: x.hist.reads
      hist.trace := .read k value :: x.hist.trace
      seen := ⟨k, value, current⟩ :: x.seen }

def readAgain (k : K) (version value current : Word) (w : Word) : Tx K :=
  if Rust.version w = version then
    if version.toNat ≤ x.endVersion.toNat then x.noteRead k version value current
    else { x with pc := .extendClock k }
  else { x with pc := .readLocked k 0 }

/-- `snapshot_extend` with entries still to validate, or at its end. -/
def extendFrom (k : K) (last : Word) (rest : List (K × Word)) : Tx K :=
  if rest = [] then { x with pc := .readLocked k 0, endVersion := last }
  else { x with pc := .extendCheck k last rest }

def noteWrite (k : K) (v : Word) : Tx K := { x with hist.trace := .write k v :: x.hist.trace }

def writeWord (k : K) (v : Word) : Tx K :=
  if x.aborted then x
  else if (wsGet x.writeSet k).isSome then
    match d with
    | .wbctl => { x.noteWrite k v with writeSet := wsWrite k v x.writeSet }
    | .wbetl =>
        { x.noteWrite k v with
          writeSet := wsWrite k v x.writeSet
          writeBacks := x.writeBacks ++ [(k, v)] }
    | .wt => { x with pc := .oldValue k v .again }
  else { x with pc := .writeLocked k v 0 }

def writeLocked (k : K) (v : Word) (spins : ℕ) (w : Word) : Tx K :=
  if isLocked w then
    if d = .wbetl ∧ lockOf k ∈ x.lockedAddrs then { x with pc := .writeVersion k v }
    else
      match d.spinLimit with
      | none => x
      | some n =>
          if n < spins + 1 then x.setAborted .body
          else { x with pc := .writeLocked k v (spins + 1) }
  else { x with pc := .writeVersion k v }

def writeLog (k : K) (v version : Word) : Tx K :=
  { x.noteWrite k v with
    pc := .body
    writeSet := wsWrite k v x.writeSet
    writeBacks := x.writeBacks ++ [(k, v)]
    readSet := x.readSet ++ [(k, version)] }

def writeVersion (k : K) (v : Word) (w : Word) : Tx K :=
  if x.startVersion.toNat < (version w).toNat then x.setAborted .body
  else
    match d with
    | .wbctl =>
        { x.noteWrite k v with
          pc := .body
          writeSet := x.writeSet ++ [(k, v)]
          readSet := x.readSet ++ [(k, version w)] }
    | .wbetl =>
        if lockOf k ∈ x.lockedAddrs then x.writeLog k v (version w)
        else { x with pc := .tryLock k v (version w) 0 }
    | .wt =>
        if lockOf k ∈ x.lockedAddrs then { x with pc := .oldValue k v (.sameLock (version w)) }
        else { x with pc := .tryLock k v (version w) 0 }

def tryLockFailed (k : K) (v version : Word) (spins : ℕ) : Tx K :=
  if 10000 < spins + 1 then x.setAborted .body
  else { x with pc := .retryLocked k v version (spins + 1) }

def tryLockDone (k : K) (v version : Word) : Tx K :=
  match d with
  | .wt => { x with pc := .oldValue k v (.newLock version) }
  | _ => { x.writeLog k v version with lockedAddrs := x.lockedAddrs ++ [lockOf k] }

def oldValue (k : K) (v : Word) (how : Through) (old : Word) : Tx K :=
  match how with
  | .newLock version => { x with pc := .oldVersion k v version old }
  | _ => { x with pc := .storeThrough k v how old 0 }

def storeThrough (k : K) (v : Word) (how : Through) (old oldVer : Word) : Tx K :=
  let y :=
    { x.noteWrite k v with
      pc := .body
      writeSet := wsWrite k v x.writeSet
      undoBacks := (k, old) :: x.undoBacks }
  match how with
  | .again => y
  | .sameLock version => { y with readSet := x.readSet ++ [(k, version)] }
  | .newLock version =>
      { y with
        readSet := x.readSet ++ [(k, version)]
        lockedAddrs := x.lockedAddrs ++ [lockOf k]
        lockedOldVersions := x.lockedOldVersions ++ [(lockOf k, oldVer)] }

/-- `unlock_indices` of a sorted list. -/
def unlockFrom (idxs : List LockIdx) (result : Option Bool) : Tx K :=
  if idxs = [] then x.finish result else { x with pc := .unlock idxs result }

/-- `unlock_indices_restore` or `unlock_indices_stamp` of a sorted list. -/
def unlockToFrom (idxs : List (LockIdx × Word)) (result : Option Bool) : Tx K :=
  if idxs = [] then x.finish result else { x with pc := .unlockTo idxs result }

/-- The undo log is applied from the newest entry on, then the locks get their old
versions back. -/
def undoFrom (rest : List (K × Word)) (result : Option Bool) : Tx K :=
  if rest = [] then x.unlockToFrom (sortDedupFst x.lockedOldVersions) result
  else { x with pc := .undo rest result }

/-- `tm_abort`, and the branches of `tm_commit` that return false. -/
def rollback (held : List LockIdx) (result : Option Bool) : Tx K :=
  match d with
  | .wbctl | .wbetl => x.unlockFrom (sortDedup held) result
  | .wt => x.undoFrom x.undoBacks result

/-- `lock_write_addrs` with positions still to lock, or at its end. -/
def lockFrom (rest held : List LockIdx) : Tx K :=
  match rest with
  | [] => { x with pc := .tick held }
  | idx :: rest => { x with pc := .lock idx rest held }

/-- `tm_commit` of a transaction that has to lock and to validate. -/
def commitStart : Tx K :=
  match d with
  | .wbctl => x.lockFrom (sortDedup (x.writeSet.map fun e => lockOf e.1)) []
  | .wbetl | .wt => { x with pc := .tick x.lockedAddrs }

end Tx

section Step

variable {K M T : Type} [DecidableEq K] [Layout K M] [DecidableEq T] (d : Variant) (t : T)
  (σ : Shared K M T) (x : Tx K)

def Shared.setLock (idx : LockIdx) (w : Word) (book : Book K Word LockIdx T) : Shared K M T :=
  { σ with locks := Function.update σ.locks idx w, book := book }

/-- A lock is given back with a version, by a transaction that has committed or has not. -/
def Shared.giveBack (idx : LockIdx) (ver : Word) (result : Option Bool) : Shared K M T :=
  let w := unlockedTo ver
  σ.setLock idx w
    (if result = some true then
      σ.book.release idx (version w).toNat (x.hist.cv.getD 0)
    else σ.book.unlock idx (version w).toNat)

/-- The validation of `tm_commit` has succeeded: from here on the transaction is
committed. -/
def validated (held : List LockIdx) (ts : Word) : Shared K M T × Tx K :=
  let y := { x with hist.done := true }
  ({ σ with
      book := σ.book.commit (x.hist.cv.getD 0) x.hist.trace
      settled := writeAll σ.settled x.writeSet },
    match d with
    | .wbctl => { y with pc := .writeBack x.writeSet held }
    | .wbetl => { y with pc := .writeBack x.writeBacks held }
    | .wt => y.unlockToFrom ((sortDedup held).map fun idx => (idx, ts)) (some true))

/-- `validate_read_set` of `tm_commit`, with an entry still to check or at its end. -/
def validateFrom (rest : List (K × Word)) (held : List LockIdx) (ts : Word) :
    Shared K M T × Tx K :=
  match rest with
  | [] => validated d σ x held ts
  | _ :: _ => (σ, { x with pc := .validate rest held ts })

def gcTick (held : List LockIdx) : Shared K M T × Tx K :=
  validateFrom d { σ with gClock := σ.gClock + 1, book := σ.book.tick }
    { x with hist.cv := some (σ.book.clock + 1) } x.readSet held (σ.gClock + 1)

def tmCommit : Shared K M T × Tx K :=
  if x.aborted then (σ, x.rollback d x.lockedAddrs (some false))
  else if x.writeSet = [] then
    ({ σ with book := σ.book.commitReadOnly σ.book.clock x.hist.trace }, x.finish (some true))
  else (σ, x.commitStart d)

def tryLockCas (k : K) (v version : Word) (spins : ℕ) (cur : Word) : Shared K M T × Tx K :=
  if σ.locks (lockOf k) = cur then
    (σ.setLock (lockOf k) (locked cur) (σ.book.acquire (lockOf k) t), x.tryLockDone d k v version)
  else (σ, x.tryLockFailed k v version spins)

def lockCas (cur : Word) (idx : LockIdx) (rest held : List LockIdx) : Shared K M T × Tx K :=
  if σ.locks idx = cur then
    (σ.setLock idx (locked cur) (σ.book.acquire idx t), x.lockFrom rest (held ++ [idx]))
  else (σ, { x with pc := .lock idx rest held })

def next (c : TmCall K) : Option (Shared K M T × Tx K) :=
  match x.pc, c with
  | .out, .begin => some (σ, { x with pc := .beginClock })
  | .beginClock, .tau => some (σ, Tx.begin σ.gClock)
  | .body, .read k => some (σ, x.readWord k)
  | .body, .write k v => some (σ, x.writeWord d k v)
  | .body, .abort => some (σ, x.rollback d x.lockedAddrs none)
  | .body, .commit => some (tmCommit d σ x)
  | .readLocked k spins, .tau => some (σ, x.readLocked d k spins (σ.locks (lockOf k)))
  | .readRaw _, .tau => some (σ, { x with pc := .body })
  | .readVersion k, .tau =>
      some (σ, { x with pc := .readValue k (version (σ.locks (lockOf k))) })
  | .readValue k ver, .tau =>
      some (σ, { x with pc := .readAgain k ver (Layout.load σ.mem k) (σ.settled k) })
  | .readAgain k ver value current, .tau =>
      some (σ, x.readAgain k ver value current (σ.locks (lockOf k)))
  | .extendClock k, .tau => some (σ, x.extendFrom k σ.gClock x.readSet)
  | .extendCheck k last (r :: rest), .tau =>
      some (σ,
        if version (σ.locks (lockOf r.1)) = r.2 then x.extendFrom k last rest
        else x.setAborted .body)
  | .writeLocked k v spins, .tau => some (σ, x.writeLocked d k v spins (σ.locks (lockOf k)))
  | .writeVersion k v, .tau => some (σ, x.writeVersion d k v (σ.locks (lockOf k)))
  | .tryLock k v ver spins, .tau =>
      some (σ,
        if isLocked (σ.locks (lockOf k)) then x.tryLockFailed k v ver spins
        else { x with pc := .tryLockCas k v ver spins (σ.locks (lockOf k)) })
  | .tryLockCas k v ver spins cur, .tau => some (tryLockCas d t σ x k v ver spins cur)
  | .tryLockCas k v ver spins _, .weak => some (σ, x.tryLockFailed k v ver spins)
  | .retryLocked k v ver spins, .tau =>
      some (σ,
        if isLocked (σ.locks (lockOf k)) then { x with pc := .retryVersion k v ver spins }
        else { x with pc := .tryLock k v ver spins })
  | .retryVersion k v ver spins, .tau =>
      some (σ,
        if x.startVersion.toNat < (version (σ.locks (lockOf k))).toNat then x.setAborted .body
        else { x with pc := .tryLock k v ver spins })
  | .oldValue k v how, .tau => some (σ, x.oldValue k v how (Layout.load σ.mem k))
  | .oldVersion k v ver old, .tau =>
      some (σ,
        { x with pc := .storeThrough k v (.newLock ver) old (version (σ.locks (lockOf k))) })
  | .storeThrough k v how old oldVer, .tau =>
      some ({ σ with mem := Layout.store σ.mem k v }, x.storeThrough k v how old oldVer)
  | .lock idx rest held, .tau =>
      some (σ,
        if isLocked (σ.locks idx) then x
        else { x with pc := .lockCas (σ.locks idx) idx rest held })
  | .lockCas cur idx rest held, .tau => some (lockCas t σ x cur idx rest held)
  | .lockCas _ idx rest held, .weak => some (σ, { x with pc := .lock idx rest held })
  | .tick held, .tau => some (gcTick d σ x held)
  | .validate (r :: rest) held ts, .tau =>
      some (if version (σ.locks (lockOf r.1)) = r.2 then validateFrom d σ x rest held ts
        else (σ, x.rollback d held (some false)))
  | .writeBack (w :: rest) held, .tau =>
      some ({ σ with mem := Layout.store σ.mem w.1 w.2 },
        if rest = [] then x.unlockFrom (sortDedup held) (some true)
        else { x with pc := .writeBack rest held })
  | .unlock (idx :: rest) result, .tau =>
      some (σ, { x with pc := .unlockStore (version (σ.locks idx)) idx rest result })
  | .unlockStore ver idx rest result, .tau =>
      some (σ.giveBack x idx (ver + 1) result, x.unlockFrom rest result)
  | .undo (w :: rest) result, .tau =>
      some ({ σ with mem := Layout.store σ.mem w.1 w.2 }, x.undoFrom rest result)
  | .unlockTo (p :: rest) result, .tau =>
      some (σ.giveBack x p.1 p.2 result, x.unlockToFrom rest result)
  | _, _ => none

def step : Threads (Shared K M T) (Tx K) T → T × TmCall K →
    Option (Threads (Shared K M T) (Tx K) T) :=
  Threads.step (next d)

def init (K T : Type) {M : Type} [Layout K M] (m₀ : M) : Threads (Shared K M T) (Tx K) T where
  shared := { mem := m₀, settled := Layout.load m₀ }
  tx _ := {}

end Step

end Rust.TinySTM
