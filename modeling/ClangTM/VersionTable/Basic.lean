import Mathlib.Data.List.Sort
import ClangTM.CommitLock.Basic
import ClangTM.Rust.Memory
import ClangTM.Serial.Buffered
import ClangTM.Serial.Ledger

/-!
# Backends with a version table and a commit lock

Four backends that keep the versions of words in a table apart from the data and commit one
transaction at a time: Romulus (`romulus.hpp`), and the Rust backends `romulus`, `xtm` and
`leftright`. They differ in what a read checks and notes, in what a commit validates, and in
how they write back; the entries of the C++ backend have a lock bit. `leftright` has no read
set: it validates the words it writes.

Words are cells that do not overlap, each of them accessed with one width. A step is one access
to the shared state, together with the local work up to the next one. The order in which a hash
map yields its keys is not determined: it is part of the call of `commit`. The panic by which a
read gives up is caught by `transaction`, which calls `tm_abort`, and in C++ it is a `longjmp`
out of the transaction; either way it is one step here.

No step reads the fields `count`, `holder`, `pending`, `dirty`, `log` and `ro` of the shared
state, and `ops`, `reads` and `begun` of a transaction: how often a word has been written back,
who holds the lock and what it has still to write and to give a version, and the history.
-/

namespace VersionTable

open Serial Transition CommitLock
open Rust (Addr)

inductive Variant
  | romulusCpp
  | romulus
  | xtm
  | leftright
deriving DecidableEq

abbrev Slot := BitVec 20

def versionIndex (a : Addr) : Slot := (a >>> 3).setWidth 20

section Entry

variable (d : Variant)

def makeVersionEntry (ver : Word) : Word :=
  match d with
  | .romulusCpp => ver <<< 1
  | _ => ver

def readVersion (entry : Word) : Word :=
  match d with
  | .romulusCpp => entry >>> 1
  | _ => entry

/-- `is_locked`; the Rust backends have no lock bit. -/
def isLocked (entry : Word) : Bool :=
  match d with
  | .romulusCpp => entry &&& 1 != 0
  | _ => false

end Entry

/-- One comparison of the validation: of a word that is written with the time of the begin, or
of a word that was read with the version noted. -/
inductive Check
  | write (a : Addr)
  | read (a : Addr) (ver : Word)
deriving DecidableEq

def Check.addr : Check → Addr
  | .write a | .read a _ => a

inductive Pc
  | out
  /-- `begin`: the load of the clock. -/
  | beginClock
  | body
  /-- `read_word`: the first load of the entry. -/
  | readBefore (a : Addr)
  /-- `read_word`: the load of the value. -/
  | readValue (a : Addr) (entry : Word)
  /-- `read_word`: the second load of the entry; `age` is the number of the write that `val`
  comes from. -/
  | readAfter (a : Addr) (entry val : Word) (age : ℕ)
  /-- `commit`: the load of the commit lock in C++, the compare-and-swap in Rust. -/
  | lock (keys : List Addr)
  /-- `commit`: the exchange on the commit lock. -/
  | lockSwap (keys : List Addr)
  /-- `commit`: the comparisons still to make. -/
  | validate (rest : List Check) (keys : List Addr)
  /-- `commit`: the store to the commit lock after a failed validation. -/
  | giveUp
  /-- `commit`: the lock bits still to set. -/
  | setLocks (rest keys : List Addr)
  /-- `commit`: `increment_clock`. -/
  | tick (keys : List Addr)
  /-- `commit`: the words still to write. -/
  | writeBack (rest : List (Addr × Word)) (keys : List Addr) (ts : Word)
  /-- `commit`: the entries still to update. -/
  | stamp (rest : List Addr) (ts : Word)
  /-- `commit`: the last store to the commit lock. -/
  | release

/-- A thread: its program counter, its transaction, and what `commit` returned, until the next
transaction begins. -/
structure Tx where
  pc : Pc := .out
  timestamp : Word := 0
  readSet : List (Addr × Word) := []
  writeSet : List (Addr × Word) := []
  writeBacks : List (Addr × Word) := []
  committed : Option Bool := none
  ops : Trace Addr Word := []
  reads : List (Seen Addr (Word × ℕ)) := []
  begun : ℕ := 0

/-- A transaction that has committed: what it did, what it had read, and memory before it. -/
structure Commit where
  ops : Trace Addr Word
  reads : List (Seen Addr (Word × ℕ))
  before : Addr → Word × ℕ

/-- The clock, the commit lock, the table and memory, and the history. -/
structure Shared (T : Type) where
  gClock : Word := 1
  commitLock : Word := 0
  table : Slot → Word := fun _ => 0
  mem : Addr → Word
  count : Addr → ℕ := fun _ => 0
  holder : Option T := none
  pending : List (Addr × Word) := []
  dirty : List Slot := []
  log : List Commit := []
  ro : List (ReadOnly Addr Word) := []

/-- What a thread does: a call, with the order of the keys of its write set if it commits, or
the next access of the function it is in. -/
inductive Call
  | begin
  | read (a : Addr)
  | write (a : Addr) (v : Word)
  | commit (keys : List Addr)
  | abort
  | tau

namespace Tx

variable (d : Variant) (x : Tx)

def begin (clock : Word) (begun : ℕ) : Tx := { pc := .body, timestamp := clock, begun := begun }

/-- The end of a transaction, and the result of `commit` if it was called. -/
def finish (result : Option Bool) : Tx := { committed := result }

def readWord (a : Addr) : Tx :=
  match x.writeSet.lookup a with
  | some v => { x with ops := .read a v :: x.ops }
  | none =>
      match d with
      | .leftright => { x with pc := .readValue a 0 }
      | _ => { x with pc := .readBefore a }

def pushRead (a : Addr) (ver : Word) : List (Addr × Word) :=
  match d with
  | .romulusCpp | .xtm => x.readSet ++ [(a, ver)]
  | .romulus => if x.readSet.all fun r => r.1 ≠ a then x.readSet ++ [(a, ver)] else x.readSet
  | .leftright => x.readSet

def noteRead (a : Addr) (ver val : Word) (age : ℕ) : Tx :=
  { x with
    pc := .body
    readSet := x.pushRead d a ver
    ops := .read a val :: x.ops
    reads := x.reads ++
      [⟨a, if d = .leftright then x.timestamp.toNat else ver.toNat, (val, age)⟩] }

def readValue (a : Addr) (entry val : Word) (age : ℕ) : Tx :=
  match d with
  | .leftright => x.noteRead d a 0 val age
  | _ => { x with pc := .readAfter a entry val age }

def writeWord (a : Addr) (v : Word) : Tx :=
  { x with
    writeSet := putBack a v x.writeSet
    writeBacks := x.writeBacks ++ [(a, v)]
    ops := .write a v :: x.ops }

/-- Whether the loops of `commit` over the write set can go in this order. -/
def yields (keys : List Addr) : Bool :=
  match d with
  | .romulusCpp =>
      keys == (x.writeSet.map Prod.fst).insertionSort fun a b => a.toNat ≤ b.toNat
  | .romulus => keys.isPerm (x.writeSet.map Prod.fst)
  | .xtm | .leftright => keys == x.writeSet.map Prod.fst

/-- The comparisons of the validation, in their order. -/
def checks (keys : List Addr) : List Check :=
  let writes := keys.map Check.write
  let reads := x.readSet.map fun r => Check.read r.1 r.2
  match d with
  | .romulusCpp | .romulus => writes ++ reads
  | .xtm => reads ++ writes
  | .leftright => writes

/-- Whether a comparison succeeds with this entry of the table. -/
def passes (c : Check) (entry : Word) : Bool :=
  !isLocked d entry &&
    match c with
    | .write _ => (readVersion d entry).toNat ≤ x.timestamp.toNat
    | .read _ ver => readVersion d entry == ver

def toWrite (keys : List Addr) : List (Addr × Word) :=
  match d with
  | .romulusCpp => keys.filterMap fun a => (x.writeSet.lookup a).map fun v => (a, v)
  | _ => x.writeBacks

/-- The validation with comparisons still to make, or at its end. -/
def validateFrom (rest : List Check) (keys : List Addr) : Tx :=
  match rest with
  | _ :: _ => { x with pc := .validate rest keys }
  | [] =>
      match d with
      | .romulusCpp => { x with pc := .setLocks keys keys }
      | _ => { x with pc := .tick keys }

end Tx

section Step

variable {T : Type} (d : Variant) (t : T) (σ : Shared T) (x : Tx)

def commitReadOnly : Shared T × Tx :=
  let settled := σ.commitLock == 0 &&
    x.readSet.all fun r => readVersion d (σ.table (versionIndex r.1)) == r.2
  ({ σ with ro := ⟨x.begun, σ.log.length, x.ops, settled⟩ :: σ.ro }, Tx.finish (some true))

def locked (keys : List Addr) : Shared T × Tx :=
  ({ σ with commitLock := 1, holder := some t }, x.validateFrom d (x.checks d keys) keys)

def lock (keys : List Addr) : Shared T × Tx :=
  if σ.commitLock = 0 then
    match d with
    | .romulusCpp => (σ, { x with pc := .lockSwap keys })
    | _ => locked d t σ x keys
  else (σ, x)

def lockSwap (keys : List Addr) : Shared T × Tx :=
  if σ.commitLock = 0 then locked d t σ x keys
  else ({ σ with commitLock := 1 }, { x with pc := .lock keys })

/-- `increment_clock`: from here on the transaction is committed. -/
def tick (keys : List Addr) : Shared T × Tx :=
  ({ σ with
      gClock := σ.gClock + 1
      pending := x.toWrite d keys
      dirty := keys.map versionIndex
      log := σ.log ++ [⟨x.ops, x.reads, fun a => (σ.mem a, σ.count a)⟩] },
    { x with pc := .writeBack (x.toWrite d keys) keys (σ.gClock + 1) })

def writeBack (w : Addr × Word) (rest : List (Addr × Word)) (keys : List Addr) (ts : Word) :
    Shared T × Tx :=
  ({ σ with
      mem := Function.update σ.mem w.1 w.2
      count := Function.update σ.count w.1 (σ.count w.1 + 1)
      pending := rest },
    { x with pc := if rest = [] then .stamp keys ts else .writeBack rest keys ts })

/-- The update of one entry of the table. -/
def stamp (a : Addr) (rest : List Addr) (ts : Word) : Shared T × Tx :=
  ({ σ with
      table := Function.update σ.table (versionIndex a) (makeVersionEntry d ts)
      dirty := σ.dirty.filter fun ℓ => ℓ ≠ versionIndex a },
    { x with pc := if rest = [] then .release else .stamp rest ts })

def unlock (result : Bool) : Shared T × Tx :=
  ({ σ with commitLock := 0, holder := none }, Tx.finish (some result))

def next (c : Call) : Option (Shared T × Tx) :=
  match x.pc, c with
  | .out, .begin => some (σ, { x with pc := .beginClock })
  | .beginClock, .tau => some (σ, Tx.begin σ.gClock σ.log.length)
  | .body, .read a => some (σ, x.readWord d a)
  | .body, .write a v => some (σ, x.writeWord a v)
  | .body, .abort => some (σ, Tx.finish none)
  | .body, .commit keys =>
      if x.writeSet = [] then some (commitReadOnly d σ x)
      else if x.yields d keys then some (σ, { x with pc := .lock keys })
      else none
  | .readBefore a, .tau =>
      let entry := σ.table (versionIndex a)
      some (σ, if isLocked d entry then Tx.finish none else { x with pc := .readValue a entry })
  | .readValue a entry, .tau => some (σ, x.readValue d a entry (σ.mem a) (σ.count a))
  | .readAfter a entry val age, .tau =>
      some (σ,
        if σ.table (versionIndex a) = entry then x.noteRead d a (readVersion d entry) val age
        else Tx.finish none)
  | .lock keys, .tau => some (lock d t σ x keys)
  | .lockSwap keys, .tau => some (lockSwap d t σ x keys)
  | .validate (c :: rest) keys, .tau =>
      some (σ,
        if x.passes d c (σ.table (versionIndex c.addr)) then x.validateFrom d rest keys
        else { x with pc := .giveUp })
  | .giveUp, .tau => some (unlock σ false)
  | .setLocks (a :: rest) keys, .tau =>
      some ({ σ with
          table := Function.update σ.table (versionIndex a) (σ.table (versionIndex a) ||| 1) },
        { x with pc := if rest = [] then .tick keys else .setLocks rest keys })
  | .tick keys, .tau => some (tick d σ x keys)
  | .writeBack (w :: rest) keys ts, .tau => some (writeBack σ x w rest keys ts)
  | .stamp (a :: rest) ts, .tau => some (stamp d σ x a rest ts)
  | .release, .tau => some (unlock σ true)
  | _, _ => none

end Step

def step {T : Type} [DecidableEq T] (d : Variant) :
    Threads (Shared T) Tx T → T × Call → Option (Threads (Shared T) Tx T) :=
  Threads.step (next d)

def init (T : Type) (m₀ : Addr → Word) : Threads (Shared T) Tx T where
  shared := { mem := m₀ }
  tx _ := {}

end VersionTable
