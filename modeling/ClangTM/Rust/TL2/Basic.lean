import Mathlib.Data.List.Sort
import ClangTM.Rust.Lock
import ClangTM.Serial.CommitLog
import ClangTM.Serial.RedoLog
import ClangTM.Transition.Threads

/-!
# The Rust TL2 backend

The backend of `runtime/tl2`, without the feature `simulation`, over cells that do not
overlap, each of them accessed with one width. A commit runs under `COMMIT_LOCK`: it
validates the read set by version, locks the words it writes, writes them back and
increments their versions. A transaction without writes commits at once.

A step is one access to the shared state, together with the local work up to the next one.
The label `weak` makes `compare_exchange_weak` fail although the values agree. The order in
which the hash map yields its entries is not determined: in the write-back the label is the
entry that comes next. The panic by which a read gives up is caught by `transaction`, which
calls `tm_abort`; the two are one step here.

The field `turn` counts the acquisitions of `COMMIT_LOCK`, `log` has the traces of the
transactions that committed, by their turn, and `sure` is the turn up to which the log is
final; `holder` is the thread that holds `COMMIT_LOCK`. No step reads these fields, nor
`ops` and `reads` of a transaction.
-/

namespace Rust.TL2

open Serial Transition

inductive Pc
  | out
  /-- `tm_begin`: the load of the clock. -/
  | beginClock
  | body
  /-- `read_word`: `is_locked`. -/
  | readLocked (a : Addr)
  /-- `read_word`: the first `read_version`. -/
  | readVersion (a : Addr)
  /-- `read_word`: the load of the value. -/
  | readValue (a : Addr) (ver : Word)
  /-- `read_word`: the second `read_version`. -/
  | readAgain (a : Addr) (ver val : Word)
  /-- `tm_commit`: the load of `COMMIT_LOCK`. -/
  | commitLoad
  /-- `tm_commit`: the compare-and-swap on `COMMIT_LOCK`. -/
  | commitCas
  /-- `tm_commit`: the entries still to validate. -/
  | validate (rest : List (Addr × Word))
  /-- `tm_commit`: the store to `COMMIT_LOCK` after a failed validation. -/
  | giveUp
  /-- `tm_commit`: the load of `try_lock_exclusive`. -/
  | lock (a : Addr) (rest : List Addr) (locked : List LockIdx)
  /-- `tm_commit`: its compare-and-swap. -/
  | lockCas (cur : Word) (a : Addr) (rest : List Addr) (locked : List LockIdx)
  /-- `tm_commit`: the entries still to write back. -/
  | writeBack (rest : List (Addr × Word)) (locked : List LockIdx)
  /-- `tm_commit`: the load of `unlock_exclusive`. -/
  | unlock (rest : List LockIdx)
  /-- `tm_commit`: its store. -/
  | unlockStore (ver : Word) (idx : LockIdx) (rest : List LockIdx)
  /-- `tm_commit`: the `fetch_add` of the clock. -/
  | advance
  /-- `tm_commit`: the last store to `COMMIT_LOCK`. -/
  | release
deriving DecidableEq

/-- A read from memory: the address, the version noted and the value. -/
structure ReadRecord where
  addr : Addr
  ver : Word
  val : Word
deriving DecidableEq

/-- A thread: its program counter, its `TxState`, and what `tm_commit` returned, until the
next transaction begins. -/
structure Tx where
  pc : Pc := .out
  readSet : List (Addr × Word) := []
  writeSet : List (Addr × Word) := []
  startVersion : Word := 0
  committed : Option Bool := none
  ops : Trace Addr Word := []
  reads : List ReadRecord := []

structure Shared (T : Type) where
  commitLock : Word := 0
  gClock : Word := 0
  locks : LockIdx → Word := fun _ => 0
  mem : Addr → Word
  holder : Option T := none
  turn : ℕ := 0
  sure : ℕ := 0
  log : ℕ → Option (Trace Addr Word) := fun _ => none
  ro : List (ℕ × Trace Addr Word) := []

namespace Tx

variable (x : Tx)

def begin (clock : Word) : Tx := { pc := .body, startVersion := clock }

def finish (result : Option Bool) : Tx := { committed := result }

def readWord (a : Addr) : Tx :=
  match x.writeSet.lookup a with
  | some v => { x with ops := .read a v :: x.ops }
  | none => { x with pc := .readLocked a }

def readAgain (a : Addr) (ver val : Word) (w : Word) : Tx :=
  if version w = ver then
    if x.startVersion.toNat < ver.toNat ∨ 1000000 < x.readSet.length then finish none
    else
      { x with
        pc := .body
        readSet := x.readSet ++ [(a, ver)]
        ops := .read a val :: x.ops
        reads := ⟨a, ver, val⟩ :: x.reads }
  else { x with pc := .readLocked a }

def writeWord (a : Addr) (v : Word) : Tx :=
  { x with writeSet := putBack a v x.writeSet, ops := .write a v :: x.ops }

def addrs : List Addr := (x.writeSet.map Prod.fst).insertionSort fun a b => a.toNat ≤ b.toNat

end Tx

section Step

variable {T : Type} (t : T) (σ : Shared T) (x : Tx)

/-- The locks of the write set are all taken: from here on the transaction is committed. -/
def allLocked (locked : List LockIdx) : Shared T × Tx :=
  ({ σ with log := enter σ.log σ.turn x.ops, sure := σ.turn },
    { x with pc := .writeBack x.writeSet locked })

/-- The lock loop of `tm_commit`: the next address whose lock is not taken yet, or the
write-back. -/
def lockFrom (rest : List Addr) (locked : List LockIdx) : Shared T × Tx :=
  match rest.dropWhile fun a => lockIndex a ∈ locked with
  | [] => allLocked σ x locked
  | a :: rest => (σ, { x with pc := .lock a rest locked })

/-- `validate_read_set` with entries still to compare, or the lock loop. -/
def validateFrom (rest : List (Addr × Word)) : Shared T × Tx :=
  match rest with
  | [] => lockFrom σ x x.addrs []
  | _ :: _ => (σ, { x with pc := .validate rest })

def commitCas : Shared T × Tx :=
  if σ.commitLock = 0 then
    validateFrom { σ with commitLock := 1, holder := some t, turn := σ.turn + 1 } x x.readSet
  else (σ, { x with pc := .commitLoad })

def lockCas (cur : Word) (a : Addr) (rest : List Addr) (locked : List LockIdx) :
    Shared T × Tx :=
  if σ.locks (lockIndex a) = cur then
    lockFrom { σ with locks := Function.update σ.locks (lockIndex a) (Rust.locked cur) } x rest
      (locked ++ [lockIndex a])
  else (σ, { x with pc := .lock a rest locked })

def unlockFrom (rest : List LockIdx) : Pc := if rest = [] then .advance else .unlock rest

/-- The write-back of the entry `w`, the next one that the map yields. -/
def writeBack (w : Addr × Word) (rest : List (Addr × Word)) (locked : List LockIdx) :
    Shared T × Tx :=
  let rest := rest.filter fun e => e.1 ≠ w.1
  ({ σ with mem := Function.update σ.mem w.1 w.2 },
    { x with pc := if rest = [] then unlockFrom locked.reverse else .writeBack rest locked })

def next (c : TmCall Addr) : Option (Shared T × Tx) :=
  match x.pc, c with
  | .out, .begin => some (σ, { x with pc := .beginClock })
  | .beginClock, .tau => some (σ, Tx.begin σ.gClock)
  | .body, .read a => some (σ, x.readWord a)
  | .body, .write a v => some (σ, x.writeWord a v)
  | .body, .abort => some (σ, Tx.finish none)
  | .body, .commit =>
      some (if x.writeSet = [] then
          ({ σ with ro := (σ.sure, x.ops) :: σ.ro }, Tx.finish (some true))
        else (σ, { x with pc := .commitLoad }))
  | .readLocked a, .tau =>
      some (σ,
        if isLocked (σ.locks (lockIndex a)) then x else { x with pc := .readVersion a })
  | .readVersion a, .tau =>
      some (σ, { x with pc := .readValue a (version (σ.locks (lockIndex a))) })
  | .readValue a ver, .tau => some (σ, { x with pc := .readAgain a ver (σ.mem a) })
  | .readAgain a ver val, .tau => some (σ, x.readAgain a ver val (σ.locks (lockIndex a)))
  | .commitLoad, .tau => some (σ, if σ.commitLock = 0 then { x with pc := .commitCas } else x)
  | .commitCas, .tau => some (commitCas t σ x)
  | .commitCas, .weak => some (σ, { x with pc := .commitLoad })
  | .validate (r :: rest), .tau =>
      some (if version (σ.locks (lockIndex r.1)) = r.2 then validateFrom σ x rest
        else (σ, { x with pc := .giveUp }))
  | .giveUp, .tau =>
      some ({ σ with commitLock := 0, holder := none, sure := σ.turn }, Tx.finish (some false))
  | .lock a rest locked, .tau =>
      some (σ,
        if isLocked (σ.locks (lockIndex a)) then x
        else { x with pc := .lockCas (σ.locks (lockIndex a)) a rest locked })
  | .lockCas cur a rest locked, .tau => some (lockCas σ x cur a rest locked)
  | .lockCas _ a rest locked, .weak => some (σ, { x with pc := .lock a rest locked })
  | .writeBack rest locked, .write a v =>
      if rest.lookup a = some v then some (writeBack σ x (a, v) rest locked) else none
  | .unlock (idx :: rest), .tau =>
      some (σ, { x with pc := .unlockStore (version (σ.locks idx)) idx rest })
  | .unlockStore ver idx rest, .tau =>
      some ({ σ with locks := Function.update σ.locks idx (unlockedTo (ver + 1)) },
        { x with pc := unlockFrom rest })
  | .advance, .tau => some ({ σ with gClock := σ.gClock + 1 }, { x with pc := .release })
  | .release, .tau => some ({ σ with commitLock := 0, holder := none }, Tx.finish (some true))
  | _, _ => none

end Step

def step {T : Type} [DecidableEq T] :
    Threads (Shared T) Tx T → T × TmCall Addr → Option (Threads (Shared T) Tx T) :=
  Threads.step next

def init (T : Type) (m₀ : Addr → Word) : Threads (Shared T) Tx T where
  shared := { mem := m₀ }
  tx _ := {}

end Rust.TL2
