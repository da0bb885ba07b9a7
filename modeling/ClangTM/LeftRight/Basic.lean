import ClangTM.CommitLock.Basic
import ClangTM.Memory
import ClangTM.Serial.Buffered

/-!
# LeftRight

The C++ backend `leftright`, when it is not in queue mode. A transaction notes, with its first
read of an address, the clock and the value; a commit compares the clock values with that of its
begin, and under the commit lock the values with memory. There is no other version of a word.

Cells are words that do not overlap, each of them accessed with one type, at transactional
addresses. A step is one access to the shared state, together with the local work up to the next
one. The order in which the hash maps of a transaction yield their entries is not determined: it
is part of the call of `commit`.

No step reads the fields `holder`, `pending` and `log` of the shared state, and `ops` of a
transaction: who holds the lock and what it has still to write, and the committed transactions
in the order of their commits.
-/

namespace LeftRight

open Serial Transition

structure ReadLogEntry (A V : Type) where
  addr : A
  observedVersion : Word
  capturedValue : V
deriving DecidableEq

inductive Pc (A V : Type)
  | out
  /-- `begin`: `get_clock`. -/
  | beginClock
  | body
  /-- `read_word`: the load of the value. -/
  | readValue (a : A)
  /-- `read_word`: `get_clock`. -/
  | readClock (a : A) (val : V)
  /-- `commit`: `acquire_commit_lock`. -/
  | lock (rs : List (ReadLogEntry A V)) (ws : List (A × V))
  /-- `commit`: the values still to compare. -/
  | compare (rest : List (ReadLogEntry A V)) (ws : List (A × V))
  /-- `commit`: `increment_clock`. -/
  | tick (ws : List (A × V))
  /-- `commit`: the words still to write. -/
  | writeBack (rest : List (A × V))
  /-- `commit`: `release_commit_lock`. -/
  | release (valid : Bool)

/-- A thread: its program counter, its transaction, and whether `commit` returned or aborted,
until the next transaction begins. -/
structure Tx (A V : Type) where
  pc : Pc A V := .out
  endVersion : Word := 0
  readSet : List (ReadLogEntry A V) := []
  writeSet : List (A × V) := []
  committed : Option Bool := none
  ops : Trace A V := []

structure Shared (A V T : Type) where
  gClock : Word := 1
  gCommitLock : BitVec 32 := 0
  mem : A → V
  holder : Option T := none
  pending : List (A × V) := []
  log : List (Trace A V) := []

/-- What a thread does: a call, with the order of its read and write set if it commits, or the
next access of the function it is in. -/
inductive Call (A V : Type)
  | begin
  | read (a : A)
  | write (a : A) (v : V)
  | commit (rs : List (ReadLogEntry A V)) (ws : List (A × V))
  | abort
  | tau

section Step

variable {A V T : Type} [DecidableEq A]

namespace Tx

variable (x : Tx A V)

/-- The end of a transaction, and whether `commit` returned, if it was called. -/
def finish (result : Option Bool) : Tx A V := { committed := result }

def validate : Bool := x.readSet.all fun r => r.observedVersion.toNat ≤ x.endVersion.toNat

def readWord (a : A) : Tx A V :=
  match x.writeSet.lookup a with
  | some v => { x with ops := .read a v :: x.ops }
  | none => { x with pc := .readValue a }

/-- `read_word` after the load of the value: only the first read of an address is noted. -/
def readValue (a : A) (val : V) : Tx A V :=
  if x.readSet.any fun r => r.addr = a then { x with pc := .body, ops := .read a val :: x.ops }
  else { x with pc := .readClock a val }

def readClock (a : A) (val : V) (clock : Word) : Tx A V :=
  { x with
    pc := .body
    readSet := x.readSet ++ [⟨a, clock, val⟩]
    ops := .read a val :: x.ops }

def writeWord (a : A) (v : V) : Tx A V :=
  { x with writeSet := putBack a v x.writeSet, ops := .write a v :: x.ops }

/-- The comparison with memory, with entries still to compare or at its end. -/
def compareFrom (rest : List (ReadLogEntry A V)) (ws : List (A × V)) : Tx A V :=
  match rest with
  | [] => { x with pc := .tick ws }
  | _ :: _ => { x with pc := .compare rest ws }

end Tx

variable (t : T) (σ : Shared A V T) (x : Tx A V)

/-- `commit` up to its first access; a transaction without writes is not validated. -/
def commit [DecidableEq V] (rs : List (ReadLogEntry A V)) (ws : List (A × V)) :
    Option (Shared A V T × Tx A V) :=
  if x.writeSet = [] then some ({ σ with log := σ.log ++ [x.ops] }, Tx.finish (some true))
  else if x.validate then
    if rs.Perm x.readSet ∧ ws.Perm x.writeSet then some (σ, { x with pc := .lock rs ws }) else none
  else some (σ, Tx.finish (some false))

/-- `acquire_commit_lock`; `validate` under the lock has the same result as before. -/
def lock (rs : List (ReadLogEntry A V)) (ws : List (A × V)) : Shared A V T × Tx A V :=
  if σ.gCommitLock = 0 then
    ({ σ with gCommitLock := 1, holder := some t },
      if x.validate then x.compareFrom rs ws else { x with pc := .release false })
  else (σ, x)

def compare [DecidableEq V] (r : ReadLogEntry A V) (rest : List (ReadLogEntry A V))
    (ws : List (A × V)) : Tx A V :=
  if σ.mem r.addr = r.capturedValue then x.compareFrom rest ws else { x with pc := .release false }

/-- `increment_clock`: from here on the transaction is committed. -/
def tick (ws : List (A × V)) : Shared A V T × Tx A V :=
  ({ σ with gClock := σ.gClock + 1, pending := ws, log := σ.log ++ [x.ops] },
    { x with pc := .writeBack ws })

def writeBack (w : A × V) (rest : List (A × V)) : Shared A V T × Tx A V :=
  ({ σ with mem := Function.update σ.mem w.1 w.2, pending := rest },
    { x with pc := if rest.isEmpty then .release true else .writeBack rest })

/-- `release_commit_lock`, and `abort_tx` after a failed validation. -/
def release (valid : Bool) : Shared A V T × Tx A V :=
  ({ σ with gCommitLock := 0, holder := none }, Tx.finish (some valid))

def next [DecidableEq V] (t : T) (σ : Shared A V T) (x : Tx A V) (c : Call A V) :
    Option (Shared A V T × Tx A V) :=
  match x.pc, c with
  | .out, .begin => some (σ, { x with pc := .beginClock })
  | .beginClock, .tau => some (σ, { pc := .body, endVersion := σ.gClock })
  | .body, .read a => some (σ, x.readWord a)
  | .body, .write a v => some (σ, x.writeWord a v)
  | .body, .abort => some (σ, Tx.finish none)
  | .body, .commit rs ws => commit σ x rs ws
  | .readValue a, .tau => some (σ, x.readValue a (σ.mem a))
  | .readClock a val, .tau => some (σ, x.readClock a val σ.gClock)
  | .lock rs ws, .tau => some (lock t σ x rs ws)
  | .compare (r :: rest) ws, .tau => some (σ, compare σ x r rest ws)
  | .tick ws, .tau => some (tick σ x ws)
  | .writeBack (w :: rest), .tau => some (writeBack σ x w rest)
  | .release valid, .tau => some (release σ valid)
  | _, _ => none

end Step

def step {A V T : Type} [DecidableEq A] [DecidableEq V] [DecidableEq T] :
    Threads (Shared A V T) (Tx A V) T → T × Call A V → Option (Threads (Shared A V T) (Tx A V) T) :=
  Threads.step next

def init {A V : Type} (T : Type) (m₀ : A → V) : Threads (Shared A V T) (Tx A V) T where
  shared := { mem := m₀ }
  tx _ := {}

end LeftRight
