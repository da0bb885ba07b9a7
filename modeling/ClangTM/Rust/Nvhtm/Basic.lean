import Mathlib.Data.List.Dedup
import Mathlib.Data.List.Sort
import ClangTM.CommitLock.Basic
import ClangTM.Rust.Lock
import ClangTM.Serial.Buffered
import ClangTM.Serial.Ledger

/-!
# The Rust backends `nvhtm` and `spht`

Two backends that are one but for the begin of a transaction. The global clock is also the
commit lock: it is odd while a transaction commits. A lock word has a version above its lock bit,
which counts how often the lock was given back. A read that finds a version above the clock at
the begin of its transaction dooms it: from there on reads go to memory, writes are ignored, and
`tm_commit` returns false.

Words are cells that do not overlap, each of them accessed with one width. A step is one access
to the shared state, together with the local work up to the next one; a weak compare-and-swap can
fail for no reason. What a doomed transaction reads is not recorded, and a write to a null
address is not an operation.

No step reads the fields `holder`, `pending`, `dirty`, `log` and `ro` of the shared state, and
`ops`, `reads` and `begun` of a transaction: the history of the committed transactions, who holds
the odd clock, what it has still to write, and the locks it has still to give back after that.
-/

namespace Rust.Nvhtm

open Serial Transition CommitLock

inductive Variant
  | nvhtm
  | spht
deriving DecidableEq

def nullAddrLimit : ℕ := 0x100000

def isNullAddr (a : Addr) : Bool := a.toNat < nullAddrLimit || a >>> 63 != 0

def isLocked (w : Word) : Bool := w &&& 1 != 0

def version (w : Word) : Word := w >>> 1

def unlocked (w : Word) : Word := (w >>> 1 + 1) <<< 1

inductive Pc
  | out
  /-- `tm_begin`: the load of the clock. -/
  | beginClock
  | body
  /-- `read_word`: the load of `is_locked`. -/
  | readSpin (a : Addr)
  /-- `read_word`: the first load of the version. -/
  | readVersion (a : Addr)
  /-- `read_word`: the load of the value. -/
  | readValue (a : Addr) (ver : Word)
  /-- `read_word`: the second load of the version. -/
  | readAgain (a : Addr) (ver val : Word)
  /-- `gc_acquire`: the load of the clock. -/
  | acquire
  /-- `gc_acquire`: the compare-and-swap. -/
  | acquireCas (cur : Word)
  /-- `try_lock_exclusive`: the load, with the locks still to take. -/
  | lock (rest : List LockIdx)
  /-- `try_lock_exclusive`: the compare-and-swap. -/
  | lockCas (cur : Word) (rest : List LockIdx)
  /-- `tm_commit`: the read-set entries still to compare. -/
  | validate (rest : List (Addr × Word))
  /-- `tm_commit`: the words still to write. -/
  | writeBack (rest : List (Addr × Word))
  /-- `unlock_exclusive`: the load, with the locks still to give back. -/
  | unlock (rest : List LockIdx) (result : Bool)
  /-- `unlock_exclusive`: the store. -/
  | unlockStore (cur : Word) (rest : List LockIdx) (result : Bool)
  /-- `gc_release_and_inc`. -/
  | release (result : Bool)
deriving DecidableEq

/-- A thread: its program counter, its transaction, and what `tm_commit` returned, until the
next transaction begins. -/
structure Tx where
  pc : Pc := .out
  snapshot : Word := 0
  aborted : Bool := false
  readSet : List (Addr × Word) := []
  writeSet : List (Addr × Word) := []
  writeBacks : List (Addr × Word) := []
  committed : Option Bool := none
  ops : Trace Addr Word := []
  reads : List (Seen Addr Word) := []
  begun : ℕ := 0

structure Shared (T : Type) where
  gClock : Word := 0
  locks : LockIdx → Word := fun _ => 0
  mem : Addr → Word
  holder : Option T := none
  pending : List (Addr × Word) := []
  dirty : List LockIdx := []
  log : List (Trace Addr Word) := []
  ro : List (ReadOnly Addr Word) := []

/-- What a thread does: a call, the next access of the function it is in, or a weak
compare-and-swap that fails. -/
inductive Call
  | begin
  | read (a : Addr)
  | write (a : Addr) (v : Word)
  | commit
  | abort
  | tau
  | weak

namespace Tx

variable (x : Tx)

/-- The end of a transaction, and the result of `tm_commit` if it was called. -/
def finish (result : Option Bool) : Tx := { committed := result }

/-- `read_word` up to its first access; the value that a doomed transaction gets is not
recorded. -/
def readWord (a : Addr) : Tx :=
  if x.aborted then x
  else
    match x.writeSet.lookup a with
    | some v => { x with ops := .read a v :: x.ops }
    | none => { x with pc := .readSpin a }

def noteRead (a : Addr) (ver val : Word) : Tx :=
  if x.snapshot.toNat < ver.toNat then { x with pc := .body, aborted := true }
  else
    { x with
      pc := .body
      readSet := x.readSet ++ [(a, ver)]
      ops := .read a val :: x.ops
      reads := x.reads ++ [⟨a, ver.toNat, val⟩] }

def writeWord (a : Addr) (v : Word) : Tx :=
  if x.aborted || isNullAddr a then x
  else
    { x with
      writeSet := putBack a v x.writeSet
      writeBacks := x.writeBacks ++ [(a, v)]
      ops := .write a v :: x.ops }

/-- The locks of the write set, sorted and without repetitions. -/
def idxs : List LockIdx :=
  ((x.writeSet.map fun w => lockIndex w.1).insertionSort fun i j => i.toNat ≤ j.toNat).dedup

end Tx

section Step

variable {T : Type} (d : Variant) (t : T) (σ : Shared T) (x : Tx)

/-- `tm_begin` after its load: `spht` waits for an even clock. -/
def begin : Tx :=
  if d = .spht ∧ σ.gClock &&& 1 ≠ 0 then x
  else { pc := .body, snapshot := σ.gClock, begun := σ.log.length }

def commitReadOnly : Shared T × Tx :=
  let settled := σ.gClock &&& 1 == 0 &&
    x.readSet.all fun r => version (σ.locks (lockIndex r.1)) == r.2
  ({ σ with ro := ⟨x.begun, σ.log.length, x.ops, settled⟩ :: σ.ro }, Tx.finish (some true))

def commit : Shared T × Tx :=
  if x.aborted then (σ, Tx.finish (some false))
  else if x.writeSet = [] then commitReadOnly σ x
  else (σ, { x with pc := .acquire })

def acquireCas (cur : Word) : Shared T × Tx :=
  if σ.gClock = cur then
    ({ σ with gClock := cur ||| 1, holder := some t }, { x with pc := .lock x.idxs })
  else (σ, { x with pc := .acquire })

/-- The validation with entries still to compare; at its end the transaction is committed. -/
def validateFrom (rest : List (Addr × Word)) : Shared T × Tx :=
  if rest = [] then
    ({ σ with pending := x.writeBacks, dirty := x.idxs, log := σ.log ++ [x.ops] },
      { x with pc := .writeBack x.writeBacks })
  else (σ, { x with pc := .validate rest })

def setLock (ℓ : LockIdx) : Shared T :=
  { σ with locks := Function.update σ.locks ℓ (σ.locks ℓ ||| 1) }

def lockCas (cur : Word) (ℓ : LockIdx) (rest : List LockIdx) : Shared T × Tx :=
  if σ.locks ℓ = cur then
    if rest = [] then validateFrom (setLock σ ℓ) x x.readSet
    else (setLock σ ℓ, { x with pc := .lock rest })
  else (σ, { x with pc := .lock (ℓ :: rest) })

def validate (r : Addr × Word) (rest : List (Addr × Word)) : Shared T × Tx :=
  if version (σ.locks (lockIndex r.1)) = r.2 then validateFrom σ x rest
  else (σ, { x with pc := .unlock x.idxs false })

def writeBack (w : Addr × Word) (rest : List (Addr × Word)) : Shared T × Tx :=
  ({ σ with mem := Function.update σ.mem w.1 w.2, pending := rest },
    { x with pc := if rest = [] then .unlock x.idxs true else .writeBack rest })

def unlockStore (cur : Word) (ℓ : LockIdx) (rest : List LockIdx) (result : Bool) :
    Shared T × Tx :=
  ({ σ with
      locks := Function.update σ.locks ℓ (unlocked cur)
      dirty := σ.dirty.filter fun i => i ≠ ℓ },
    { x with pc := if rest = [] then .release result else .unlock rest result })

def release (result : Bool) : Shared T × Tx :=
  ({ σ with gClock := σ.gClock + 1, holder := none }, Tx.finish (some result))

def next (c : Call) : Option (Shared T × Tx) :=
  match x.pc, c with
  | .out, .begin => some (σ, { pc := .beginClock })
  | .beginClock, .tau => some (σ, begin d σ x)
  | .body, .read a => some (σ, x.readWord a)
  | .body, .write a v => some (σ, x.writeWord a v)
  | .body, .abort => some (σ, Tx.finish none)
  | .body, .commit => some (commit σ x)
  | .readSpin a, .tau =>
      some (σ, if isLocked (σ.locks (lockIndex a)) then x else { x with pc := .readVersion a })
  | .readVersion a, .tau =>
      some (σ, { x with pc := .readValue a (version (σ.locks (lockIndex a))) })
  | .readValue a ver, .tau => some (σ, { x with pc := .readAgain a ver (σ.mem a) })
  | .readAgain a ver val, .tau =>
      some (σ,
        if version (σ.locks (lockIndex a)) = ver then x.noteRead a ver val
        else { x with pc := .readSpin a })
  | .acquire, .tau =>
      some (σ, if σ.gClock &&& 1 = 0 then { x with pc := .acquireCas σ.gClock } else x)
  | .acquireCas cur, .tau => some (acquireCas t σ x cur)
  | .acquireCas _, .weak => some (σ, { x with pc := .acquire })
  | .lock (ℓ :: rest), .tau =>
      some (σ, if isLocked (σ.locks ℓ) then x else
        { x with pc := .lockCas (σ.locks ℓ) (ℓ :: rest) })
  | .lockCas cur (ℓ :: rest), .tau => some (lockCas σ x cur ℓ rest)
  | .lockCas _ rest, .weak => some (σ, { x with pc := .lock rest })
  | .validate (r :: rest), .tau => some (validate σ x r rest)
  | .writeBack (w :: rest), .tau => some (writeBack σ x w rest)
  | .unlock (ℓ :: rest) result, .tau =>
      some (σ, { x with pc := .unlockStore (σ.locks ℓ) (ℓ :: rest) result })
  | .unlockStore cur (ℓ :: rest) result, .tau => some (unlockStore σ x cur ℓ rest result)
  | .release result, .tau => some (release σ result)
  | _, _ => none

end Step

def step {T : Type} [DecidableEq T] (d : Variant) :
    Threads (Shared T) Tx T → T × Call → Option (Threads (Shared T) Tx T) :=
  Threads.step (next d)

def init (T : Type) (m₀ : Addr → Word) : Threads (Shared T) Tx T where
  shared := { mem := m₀ }
  tx _ := {}

end Rust.Nvhtm
