import ClangTM.Rust.Memory
import ClangTM.Serial.CommitLog
import ClangTM.Serial.RedoLog
import ClangTM.Transition.Threads

/-!
# The Rust NOrec backend

The backend of `runtime/norec`, without the feature `simulation`, for accesses of
8-byte cells. Reads are taken between two loads of `GLOBAL_LOCK` that agree, and enter
the read set if that value is the snapshot of the transaction; otherwise the read set is
validated by value, the snapshot moves on and the read is tried again.

A step is one access to the shared state, together with the local work up to the next
one. The label `weak` makes `compare_exchange_weak` fail although the values agree. The
panic by which a read gives up is caught by `transaction`, which calls `tm_abort`; the
two are one step here. The fields `ops` and `changed` of a transaction and the fields
`writers`, `log` and `ro` of the shared state record what happened and are not read by
any step.
-/

namespace Rust.NOrec

open Serial Transition

/-- An entry of `read_set`; `sz` is always 8. -/
structure ReadEntry where
  addr : CellAddr
  observedVal : Word
deriving DecidableEq

/-- Who called `validate_impl`; `tm_commit` keeps its snapshot in a variable. -/
inductive Caller
  | readWord (a : CellAddr)
  | commit
deriving DecidableEq

inductive Pc
  | out
  /-- `tm_begin`: the load of `GLOBAL_LOCK`. -/
  | beginClock
  | body
  /-- `read_word`: the first load of `GLOBAL_LOCK`. -/
  | readClock (a : CellAddr)
  /-- `read_word`: the load of the cell. -/
  | readValue (a : CellAddr) (clockBefore : Word)
  /-- `read_word`: the second load of `GLOBAL_LOCK`. -/
  | readClockAfter (a : CellAddr) (clockBefore value : Word)
  /-- `validate_impl`: the load of `time`. -/
  | validateClock (k : Caller)
  /-- `validate_impl`: the entries still to compare; with none left, the load that is
  compared with `time`. -/
  | validateEntries (k : Caller) (time : Word) (rest : List ReadEntry)
  /-- `tm_commit`: the compare-and-swap. -/
  | commitCas (snapshot : Word)
  /-- `tm_commit`: the cells still to write back; with none left, the store that
  releases the lock. -/
  | writeBack (snapshot : Word) (rest : List (CellAddr × Word))
deriving DecidableEq

abbrev Call := TmCall CellAddr

/-- A thread: its program counter, the `TxState`, which is in `TX` while `active`, and
what the last `tm_commit` returned. Every step that changes memory or `GLOBAL_LOCK` sets
`changed`, and only `tm_begin` takes it back. -/
structure Tx where
  pc : Pc := .out
  active : Bool := false
  snapshot : Word := 0
  readOnly : Bool := true
  readSet : List ReadEntry := []
  writeSet : List (CellAddr × Word) := []
  committed : Option Bool := none
  ops : Trace CellAddr Word := []
  changed : Bool := false

/-- The lock and memory, and the history: the number of successful commit
compare-and-swaps, the traces of those writers in that order, and the traces of the
read-only transactions with half their snapshot. -/
structure Shared where
  globalLock : Word := 0
  mem : CellAddr → Word
  writers : ℕ := 0
  log : ℕ → Option (Trace CellAddr Word) := fun _ => none
  ro : List (ℕ × Trace CellAddr Word) := []

def isOdd (c : Word) : Bool := c &&& 1 != 0

namespace Tx

/-- `flush_tx`, with the thread outside a transaction afterwards. -/
def flush (x : Tx) : Tx := { committed := x.committed, changed := x.changed }

def tmAbort (x : Tx) : Tx := x.flush

def tmBegin (x : Tx) (clock : Word) : Tx :=
  if isOdd clock then x else { pc := .body, active := true, snapshot := clock }

def readWord (x : Tx) (a : CellAddr) : Tx :=
  match x.writeSet.lookup a with
  | some v => { x with ops := .read a v :: x.ops }
  | none => { x with pc := .readClock a }

def pushRead (x : Tx) (a : CellAddr) (v : Word) : Tx :=
  { x with pc := .body, readSet := x.readSet ++ [⟨a, v⟩], ops := .read a v :: x.ops }

def readCheck (x : Tx) (a : CellAddr) (clockBefore value clock : Word) : Tx :=
  if clock ≠ clockBefore then { x with pc := .readClock a }
  else if clockBefore = x.snapshot then x.pushRead a value
  else { x with pc := .validateClock (.readWord a) }

def writeWord (x : Tx) (a : CellAddr) (v : Word) : Tx :=
  { x with
    readOnly := false
    writeSet := putBack a v x.writeSet
    ops := .write a v :: x.ops }

def validateSome (x : Tx) (k : Caller) (time : Word) : Tx :=
  match k with
  | .readWord a => { x with pc := .readClock a, snapshot := time }
  | .commit => { x with pc := .commitCas time }

def validateNone (x : Tx) : Caller → Tx
  | .readWord _ => x.tmAbort
  | .commit => { x.flush with committed := some false }

def validateTime (x : Tx) (k : Caller) (clock : Word) : Tx :=
  if isOdd clock then { x with pc := .validateClock k }
  else { x with pc := .validateEntries k clock x.readSet }

def look (x : Tx) (clock : Word) (mem : CellAddr → Word) (c : Call) : Option Tx :=
  match x.pc, c with
  | .out, .begin => some { x with pc := .beginClock }
  | .beginClock, .tau => some (x.tmBegin clock)
  | .body, .read a => some (x.readWord a)
  | .body, .write a v => some (x.writeWord a v)
  | .body, .abort => some x.tmAbort
  | .readClock a, .tau =>
      some { x with pc := if isOdd clock then .readClock a else .readValue a clock }
  | .readValue a clockBefore, .tau =>
      some { x with pc := .readClockAfter a clockBefore (mem a) }
  | .readClockAfter a clockBefore value, .tau => some (x.readCheck a clockBefore value clock)
  | .validateClock k, .tau => some (x.validateTime k clock)
  | .validateEntries k time (r :: rest), .tau =>
      some (if mem r.addr = r.observedVal then { x with pc := .validateEntries k time rest }
        else x.validateNone k)
  | .validateEntries k time [], .tau =>
      some (if time = clock then x.validateSome k time else { x with pc := .validateClock k })
  | .commitCas _, .weak => some { x with pc := .validateClock .commit }
  | _, _ => none

end Tx

def tmCommit (σ : Shared) (x : Tx) : Shared × Tx :=
  if x.readOnly || x.writeSet.isEmpty then
    ({ σ with ro := (x.snapshot.toNat / 2, x.ops) :: σ.ro },
      { x.flush with committed := some true })
  else (σ, { x with pc := .commitCas x.snapshot, active := false })

def commitCas (σ : Shared) (x : Tx) (snapshot : Word) : Shared × Tx :=
  if σ.globalLock = snapshot then
    ({ σ with
        globalLock := snapshot + 1
        writers := σ.writers + 1
        log := enter σ.log (σ.writers + 1) x.ops },
      { x with pc := .writeBack snapshot x.writeSet, changed := true })
  else (σ, { x with pc := .validateClock .commit })

def next (σ : Shared) (x : Tx) (c : Call) : Option (Shared × Tx) :=
  match x.pc, c with
  | .body, .commit => some (tmCommit σ x)
  | .commitCas snapshot, .tau => some (commitCas σ x snapshot)
  | .writeBack snapshot (w :: rest), .tau =>
      some ({ σ with mem := Function.update σ.mem w.1 w.2 },
        { x with pc := .writeBack snapshot rest, changed := true })
  | .writeBack snapshot [], .tau =>
      some ({ σ with globalLock := snapshot + 2 },
        { x.flush with committed := some true, changed := true })
  | _, c => (x.look σ.globalLock σ.mem c).map fun x' => (σ, x')

def step {T : Type} [DecidableEq T] :
    Threads Shared Tx T → T × Call → Option (Threads Shared Tx T) :=
  Threads.step fun _ => next

def init (T : Type) (m₀ : CellAddr → Word) : Threads Shared Tx T where
  shared := { mem := m₀ }
  tx _ := {}

end Rust.NOrec
