import ClangTM.TL2.Guard

/-!
# TSC-TM

The backend `tsc_tm.hpp`, for accesses of aligned 8-byte words: TL2 without a clock. The guard
table, the Bloom filter, the read set and the validation are those of TL2. A commit reads the
cycle counter when it holds its guards, and releases each of them with the larger of this
timestamp and the version it found plus one. Nothing is assumed of the counter: a timestamp is
part of the label, any value below `2 ^ 62`.

`abort_tx` clears the lock bit of the guard of every entry of the write set. It is called
while the transaction holds no guard.

A step is one access to a guard or memory, together with the local work up to the next one;
the read of the counter in `commit` is a step of its own. The field `hist` of a transaction and
the field `book` of the shared state record what happened and are not read by any step; the
owner of a guard in the book is the thread whose compare-and-swap has set the lock bit.
-/

namespace TscTM

open Serial Transition Certify TL2

structure Timestamp where
  val : Word
  lt : val.toNat < 2 ^ 62

/-- What a thread does: a call, with the timestamp that `begin` reads; the next access of the
function it is in; that access with a compare-and-swap that fails although the values agree;
or the read of the timestamp in `commit`. -/
inductive Call
  | begin (ts : Timestamp)
  | read (a : CellAddr)
  | write (a : CellAddr) (v : Word)
  | commit
  | abort
  | tau
  | weak
  | timestamp (ts : Timestamp)

inductive Pc
  | out
  | body
  /-- `read_impl`: the load of the guard. -/
  | readGuard (a : CellAddr)
  /-- `read_impl`: the load of the word; `version` is what was noted. -/
  | readValue (a : CellAddr) (version : Word)
  /-- `commit`: the load of `try_acquire_guard` for the first entry. -/
  | acquire (e : CellAddr × Word) (rest : List (CellAddr × Word)) (held : List GuardIdx)
  /-- `commit`: the compare-and-swap of `try_acquire_guard`. -/
  | acquireCas (guard : Word) (e : CellAddr × Word) (rest : List (CellAddr × Word))
      (held : List GuardIdx)
  /-- `commit`: the release of the guards held, after a failure. -/
  | giveBack (held : List GuardIdx)
  /-- `commit`: the read of the timestamp. -/
  | timestamp (held : List GuardIdx)
  /-- `commit`: the entries of the read set still to check. -/
  | validate (rest : List ReadSetEntry) (held : List GuardIdx)
  /-- `commit`: the words still to write. -/
  | writeBack (rest : List (CellAddr × Word)) (held : List GuardIdx)
  /-- `commit`: the guards still to release with a new version. -/
  | release (rest : List GuardIdx)
  /-- `abort_tx`: the entries whose guard is still to be released. -/
  | abortRelease (rest : List CellAddr)
deriving DecidableEq

/-- A thread: its program counter, its `Transaction` and what `commit` returned, until the
next transaction begins; `acqVersion` is the array of `commit`. -/
structure Tx where
  pc : Pc := .out
  active : Bool := false
  aborted : Bool := false
  startVersion : Word := 0
  commitVersion : Word := 0
  writeSet : List (CellAddr × Word) := []
  readSet : List ReadSetEntry := []
  bloomFilter : Word := 0
  acqVersion : GuardIdx → Word := fun _ => 0
  committed : Option Bool := none
  hist : VersionLock.Tx CellAddr Word := {}

structure Shared (T : Type) where
  gGuards : GuardIdx → Word := fun _ => 0
  mem : CellAddr → Word
  book : Book CellAddr Word GuardIdx T := .empty 0

namespace Shared

variable {T : Type} (σ : Shared T)

def setGuard (ℓ : GuardIdx) (g : Word) (book : Book CellAddr Word GuardIdx T) : Shared T :=
  { σ with gGuards := Function.update σ.gGuards ℓ g, book := book }

end Shared

namespace Tx

variable (x : Tx)

def begin (ts : Word) : Tx :=
  { pc := .body, startVersion := ts, active := true, commitVersion := x.commitVersion }

def find (a : CellAddr) : Option Word :=
  if bloomMightContain x.bloomFilter a then x.writeSet.lookup a else none

def readImpl (a : CellAddr) : Tx :=
  match x.find a with
  | some v => { x with hist.trace := .read a v :: x.hist.trace }
  | none => { x with pc := .readGuard a }

def noteGuard (a : CellAddr) (guard : Word) : Tx :=
  { x with
    pc := .readValue a (guardVersion guard)
    readSet := x.readSet ++ [⟨a, guardVersion guard, isLocked guard⟩] }

def readValue (a : CellAddr) (version value : Word) : Tx :=
  { x with
    pc := .body
    hist.reads := ⟨a, version.toNat, value⟩ :: x.hist.reads
    hist.trace := .read a value :: x.hist.trace }

def writeImpl (a : CellAddr) (v : Word) : Tx :=
  { x with
    writeSet := putBack a v x.writeSet
    bloomFilter := if (x.writeSet.lookup a).isSome then x.bloomFilter
      else bloomSet x.bloomFilter a
    hist.trace := .write a v :: x.hist.trace }

/-- `abort_tx` with some entries still to release; it ends with `active` and `aborted` set. -/
def abortFrom (rest : List CellAddr) : Tx :=
  if rest = [] then { x with pc := .out, active := false, aborted := true, hist := {} }
  else { x with pc := .abortRelease rest, hist := {} }

def abortTx : Tx := x.abortFrom (x.writeSet.map Prod.fst)

def finish (ok : Bool) : Tx :=
  { x with
    pc := .out, active := false, aborted := x.aborted || !ok, committed := some ok, hist := {} }

/-- The lock loop of `commit`: the next entry whose guard is not held, or the timestamp. -/
def acquireNext (rest : List (CellAddr × Word)) (held : List GuardIdx) : Pc :=
  match rest.dropWhile fun e => getGuardIdx e.1 ∈ held with
  | [] => .timestamp held
  | e :: rest => .acquire e rest held

def fail (held : List GuardIdx) : Tx :=
  if held = [] then x.finish false else { x with pc := .giveBack held }

/-- `commit` up to its first access, with a non-empty write set. -/
def commitStart : Tx :=
  { x with
    pc := acquireNext (TL2.Tx.sortWriteSet x.writeSet) []
    writeSet := TL2.Tx.sortWriteSet x.writeSet
    acqVersion := fun _ => 0 }

def newVersion (ℓ : GuardIdx) : Word :=
  if x.acqVersion ℓ + 1 < x.commitVersion then x.commitVersion else x.acqVersion ℓ + 1

end Tx

section Step

variable {T : Type} [DecidableEq T] (t : T) (σ : Shared T) (x : Tx)

/-- The successful end of validation: from here on the transaction is committed. -/
def validated (held : List GuardIdx) : Shared T × Tx :=
  ({ σ with book := σ.book.commit (x.hist.cv.getD 0) x.hist.trace },
    { x with pc := .writeBack x.writeSet held, hist.done := true })

/-- `commit` with an entry still to check, or at the end of the read set. -/
def validateFrom (rest : List ReadSetEntry) (held : List GuardIdx) : Shared T × Tx :=
  match rest with
  | [] => validated σ x held
  | _ :: _ => (σ, { x with pc := .validate rest held })

/-- The read of the timestamp in `commit`, where the transaction takes its place in the serial
order. -/
def stamp (ts : Word) (held : List GuardIdx) : Shared T × Tx :=
  validateFrom { σ with book := σ.book.tick }
    { x with commitVersion := ts, hist.cv := some (σ.book.clock + 1) } x.readSet held

/-- A load of `try_acquire_guard` has returned the guard. -/
def acquireLoad (e : CellAddr × Word) (rest : List (CellAddr × Word)) (held : List GuardIdx) :
    Shared T × Tx :=
  let guard := σ.gGuards (getGuardIdx e.1)
  (σ, if isLocked guard then x.fail held else { x with pc := .acquireCas guard e rest held })

def acquireCas (guard : Word) (e : CellAddr × Word) (rest : List (CellAddr × Word))
    (held : List GuardIdx) : Shared T × Tx :=
  let ℓ := getGuardIdx e.1
  if σ.gGuards ℓ = guard then
    (σ.setGuard ℓ (guard ||| lockMask) (σ.book.acquire ℓ t),
      { x with
        pc := Tx.acquireNext rest (held ++ [ℓ])
        acqVersion := Function.update x.acqVersion ℓ (guardVersion guard) })
  else acquireLoad σ x e rest held

def giveBack (ℓ : GuardIdx) (held : List GuardIdx) : Shared T × Tx :=
  let guard := σ.gGuards ℓ &&& ~~~lockMask
  (σ.setGuard ℓ guard (σ.book.unlock ℓ (guardVersion guard).toNat), x.fail held)

def release (ℓ : GuardIdx) (rest : List GuardIdx) : Shared T × Tx :=
  let guard := withVersion (x.newVersion ℓ)
  (σ.setGuard ℓ guard
      (σ.book.release ℓ (guardVersion guard).toNat (x.hist.cv.getD 0)),
    if rest = [] then x.finish true else { x with pc := .release rest })

/-- `release_guard` in `abort_tx`. The book does not change: the transaction has no guard. -/
def abortRelease (a : CellAddr) (rest : List CellAddr) : Shared T × Tx :=
  let ℓ := getGuardIdx a
  (σ.setGuard ℓ (σ.gGuards ℓ &&& ~~~lockMask) σ.book, x.abortFrom rest)

def next (c : Call) : Option (Shared T × Tx) :=
  match x.pc, c with
  | .out, .begin ts => some (σ, x.begin ts.val)
  | .out, .abort => some (σ, x.abortTx)
  | .body, .read a => some (σ, x.readImpl a)
  | .body, .write a v => some (σ, x.writeImpl a v)
  | .body, .abort => some (σ, x.abortTx)
  | .body, .commit => some (σ, if x.writeSet = [] then x.finish true else x.commitStart)
  | .readGuard a, .tau => some (σ, x.noteGuard a (σ.gGuards (getGuardIdx a)))
  | .readValue a version, .tau => some (σ, x.readValue a version (σ.mem a))
  | .acquire e rest held, .tau => some (acquireLoad σ x e rest held)
  | .acquireCas guard e rest held, .tau => some (acquireCas t σ x guard e rest held)
  | .acquireCas _ e rest held, .weak => some (acquireLoad σ x e rest held)
  | .giveBack (ℓ :: held), .tau => some (giveBack σ x ℓ held)
  | .timestamp held, .timestamp ts => some (stamp σ x ts.val held)
  | .validate (r :: rest) held, .tau =>
      some (if r.stale held (σ.gGuards (getGuardIdx r.dataAddr)) then (σ, x.fail held)
        else validateFrom σ x rest held)
  | .writeBack (w :: rest) held, .tau =>
      some ({ σ with mem := Function.update σ.mem w.1 w.2 },
        { x with pc := if rest = [] then .release held else .writeBack rest held })
  | .release (ℓ :: rest), .tau => some (release σ x ℓ rest)
  | .abortRelease (a :: rest), .tau => some (abortRelease σ x a rest)
  | _, _ => none

end Step

def step {T : Type} [DecidableEq T] :
    Threads (Shared T) Tx T → T × Call → Option (Threads (Shared T) Tx T) :=
  Threads.step next

def init (T : Type) (m₀ : CellAddr → Word) : Threads (Shared T) Tx T where
  shared := { mem := m₀ }
  tx _ := {}

end TscTM
