import ClangTM.Memory
import ClangTM.Serial.CommitLog
import ClangTM.Serial.RedoLog
import ClangTM.Transition.Run

/-!
# The NOrec backend

NOrec keeps one global sequence lock. The lock is even while nobody writes back
and odd while a committing writer does; a transaction remembers the even value
its reads were taken at (`snapshot`) and, whenever the lock has moved on, reads
its whole read set again and compares values.

A step is one access to the shared state, together with the thread-local work up
to the next one. A thread that is between two accesses of a function is at the
program counter that names the access it makes next. Threads are numbered; a
label is the thread that moves and the call it makes, `tau` when it goes on with
the function it is in.

The vectors `read_set` and `write_set` are lists with the newest entry first.
`abort_count` is left out, as are the branches of `read_word_norec` and
`write_word_norec` that only entries narrower than a word can take. The field
`ops` of a transaction and the fields `writers`, `log` and `ro` of a state record
what happened and are not read by any step.
-/

namespace NOrec

open Serial

structure ReadLogEntry where
  addr : WordAddr
  observedVal : Word
  observedVersion : Word
deriving DecidableEq

inductive Caller
  | readWord (a : WordAddr)
  | commit
deriving DecidableEq

inductive Pc
  | out
  /-- The load of `global_lock` in `begin`. -/
  | beginClock
  | body
  /-- `read_word_norec`: the load of `clock_before`. -/
  | readClock (a : WordAddr)
  /-- `read_word_norec`: the first load of the word. -/
  | readValue (a : WordAddr) (clockBefore : Word)
  /-- `read_word_norec`: the load of `clock_after`. -/
  | readClockAfter (a : WordAddr) (clockBefore value : Word)
  /-- `read_word_norec`: the load that is compared with `snapshot`. -/
  | readCheck (a : WordAddr) (value : Word)
  /-- `read_word_norec`: the load of the word after `validate`. -/
  | readAgain (a : WordAddr)
  /-- `validate`: the load of `time`. -/
  | validateClock (k : Caller)
  /-- `validate`: the entries still to compare; with none left, the load that is
  compared with `time`. -/
  | validateEntries (k : Caller) (time : Word) (rest : List ReadLogEntry)
  /-- `commit`: the compare-and-swap. -/
  | commitCas
  /-- `commit`: the words still to write back; with none left, the store that
  releases the lock. -/
  | writeBack (rest : List (WordAddr × Word))
deriving DecidableEq

structure Tx where
  pc : Pc := .out
  snapshot : Word := 0
  active : Bool := false
  readOnly : Bool := true
  readSet : List ReadLogEntry := []
  writeSet : List (WordAddr × Word) := []
  ops : Trace WordAddr Word := []

/-- The shared state, the transaction of every thread, and the history: the
number of successful commit compare-and-swaps, the traces of those writers in that
order, and the traces of the read-only transactions with half their snapshot. -/
structure State where
  globalLock : Word
  mem : WordAddr → Word
  tx : ℕ → Tx
  writers : ℕ := 0
  log : ℕ → Option (Trace WordAddr Word) := fun _ => none
  ro : List (ℕ × Trace WordAddr Word) := []

def init (m₀ : WordAddr → Word) : State where
  globalLock := 0
  mem := m₀
  tx _ := {}

namespace State

def setTx (s : State) (t : ℕ) (x : Tx) : State :=
  { s with tx := Function.update s.tx t x }

end State

def isOdd (c : Word) : Bool := c &&& 1 != 0

namespace Tx

/-- `Transaction::reset`; the thread is outside a transaction afterwards. -/
def reset (_ : Tx) : Tx := {}

/-- `abort_tx`: the logs are cleared and control goes back to where the
transaction began. `active` and `snapshot` stay as they are. -/
def abortTx (x : Tx) : Tx :=
  { x with pc := .out, readSet := [], writeSet := [], ops := [] }

/-- One turn of the loop of `begin`, and what follows it. -/
def begin (x : Tx) (clock : Word) : Tx :=
  if isOdd clock then { x with snapshot := clock }
  else { pc := .body, snapshot := clock, active := true }

def readWordNorec (x : Tx) (a : WordAddr) : Tx :=
  match x.writeSet.lookup a with
  | some v => { x with ops := .read a v :: x.ops }
  | none => { x with pc := .readClock a }

def pushRead (x : Tx) (a : WordAddr) (v : Word) : Tx :=
  { x with
    pc := .body
    readSet := ⟨a, v, x.snapshot⟩ :: x.readSet
    ops := .read a v :: x.ops }

/-- `write_word_norec`: an address with one of its upper 17 bits set is skipped. -/
def writeWordNorec (x : Tx) (a : WordAddr) (v : Word) : Tx :=
  if a.val >>> 47 ≠ 0 then { x with ops := .write a v :: x.ops }
  else
    { x with
      readOnly := false
      writeSet := putFront a v x.writeSet
      ops := .write a v :: x.ops }

/-- `validate` returns `time`, which its callers store in `snapshot`. -/
def validated (x : Tx) (k : Caller) (time : Word) : Tx :=
  match k with
  | .readWord a => { x with pc := .readAgain a, snapshot := time }
  | .commit => { x with pc := .commitCas, snapshot := time }

def validateTime (x : Tx) (k : Caller) (clock : Word) : Tx :=
  if isOdd clock then { x with pc := .validateClock k }
  else if x.readSet = [] then x.validated k clock
  else { x with pc := .validateEntries k clock x.readSet.reverse }

/-- The bound on the size of `read_set` that `read_word_norec` checks. -/
def readSetLimit : ℕ := 1000000

def look (x : Tx) (clock : Word) (mem : WordAddr → Word) (c : TxCall) : Option Tx :=
  match x.pc, c with
  | .out, .begin => some { x with pc := .beginClock }
  | .beginClock, .tau => some (x.begin clock)
  | .body, .read a => some (x.readWordNorec a)
  | .body, .write a v => some (x.writeWordNorec a v)
  | .body, .abort => some x.abortTx
  | .readClock a, .tau =>
      some { x with pc := if isOdd clock then .readClock a else .readValue a clock }
  | .readValue a clockBefore, .tau =>
      some { x with pc := .readClockAfter a clockBefore (mem a) }
  | .readClockAfter a clockBefore value, .tau =>
      some { x with pc := if clock = clockBefore then .readCheck a value else .readClock a }
  | .readCheck a value, .tau =>
      if x.snapshot = clock then some (x.pushRead a value)
      else some { x with pc := .validateClock (.readWord a) }
  | .readAgain a, .tau =>
      if x.readSet.length > readSetLimit then some x.abortTx
      else some { x with pc := .readCheck a (mem a) }
  | .validateClock k, .tau => some (x.validateTime k clock)
  | .validateEntries k time (r :: rest), .tau =>
      if mem r.addr = r.observedVal then some { x with pc := .validateEntries k time rest }
      else some x.abortTx
  | .validateEntries k time [], .tau =>
      if time = clock then some (x.validated k time)
      else some { x with pc := .validateClock k }
  | _, _ => none

end Tx

namespace State

def commitReadOnly (s : State) (t : ℕ) : State :=
  { s with
    tx := Function.update s.tx t (s.tx t).reset
    ro := ((s.tx t).snapshot.toNat / 2, (s.tx t).ops) :: s.ro }

def acquire (s : State) (t : ℕ) : State :=
  { s with
    globalLock := (s.tx t).snapshot + 1
    tx := Function.update s.tx t
      { s.tx t with pc := .writeBack (s.tx t).writeSet.reverse }
    writers := s.writers + 1
    log := enter s.log (s.writers + 1) (s.tx t).ops }

def writeBack (s : State) (t : ℕ) (w : WordAddr × Word) (rest : List (WordAddr × Word)) :
    State :=
  { s with
    mem := Function.update s.mem w.1 w.2
    tx := Function.update s.tx t { s.tx t with pc := .writeBack rest } }

def release (s : State) (t : ℕ) : State :=
  { s with
    globalLock := (s.tx t).snapshot + 2
    tx := Function.update s.tx t (s.tx t).reset }

end State

def stepOf (s : State) (t : ℕ) (c : TxCall) : Option State :=
  match (s.tx t).pc, c with
  | .body, .commit =>
      if (s.tx t).readOnly then some (s.commitReadOnly t)
      else some (s.setTx t { s.tx t with pc := .commitCas })
  | .commitCas, .tau =>
      if s.globalLock = (s.tx t).snapshot then some (s.acquire t)
      else some (s.setTx t { s.tx t with pc := .validateClock .commit })
  | .writeBack (w :: rest), .tau => some (s.writeBack t w rest)
  | .writeBack [], .tau => some (s.release t)
  | _, c => ((s.tx t).look s.globalLock s.mem c).map (s.setTx t)

def step (s : State) (l : ℕ × TxCall) : Option State := stepOf s l.1 l.2

end NOrec
