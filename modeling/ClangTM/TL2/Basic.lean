import Mathlib.Data.List.Sort
import ClangTM.Certify.Basic
import ClangTM.Memory
import ClangTM.Serial.RedoLog
import ClangTM.Transition.Threads

/-!
# TL2

The backend `tl2.hpp`, for accesses of aligned 8-byte words. A word is protected by one of
8192 guards, a lock bit and a version. A read loads the guard once, notes its version
whether the guard is locked or not, and loads the word. A commit with a non-empty write set
locks the guards of its write set in the order of the addresses, takes a commit version
from the clock, compares the guards of its read set with what was noted, writes the words
and releases each guard with the commit version.

A step is one access to the clock, a guard or memory, together with the local work up to
the next one. The label `weak` is a `compare_exchange_weak` that fails although the values
agree. The fields `hist`, `taken`, `given` and `stores` of a transaction and the field
`book` of the shared state record what happened and are not read by any step. The types
`UINT64`, `DOUBLE` and `PTR` have one representation, and the parts of `read_impl` for
narrower or overlapping entries do not apply to them.
-/

namespace TL2

open Serial Transition Certify

def guardTableLog : ℕ := 13

def guardTableSize : ℕ := 1 <<< guardTableLog

abbrev GuardIdx := Fin guardTableSize

instance : LawfulBEq GuardIdx := inferInstance

def getGuardIdx (a : CellAddr) : GuardIdx :=
  ⟨((a.val.toNat >>> 3) ^^^ (a.val.toNat >>> 48)) &&& (guardTableSize - 1),
    Nat.and_lt_two_pow (n := 13) _ (by decide)⟩

def lockMask : Word := 1

def isLocked (g : Word) : Bool := g &&& lockMask != 0

def guardVersion (g : Word) : Word := (g &&& ~~~lockMask) >>> 1

def withVersion (version : Word) : Word := version <<< 1 &&& ~~~lockMask

def bloomHash (a : Word) : ℕ := (a ^^^ a >>> 17).toNat % 64

/-- `bloom_set`: the bits of the eight bytes from the address on. -/
def bloomSet (filter : Word) (a : CellAddr) : Word :=
  (List.range 8).foldl
    (fun f off => f ||| (1 : Word) <<< bloomHash (a.val + BitVec.ofNat 64 off)) filter

def bloomMightContain (filter : Word) (a : CellAddr) : Bool :=
  (filter >>> bloomHash a.val) &&& 1 != 0

/-- An entry of `read_set`; the guard is the one of the word. -/
structure ReadSetEntry where
  dataAddr : CellAddr
  observedVersion : Word
  lockedByMe : Bool
deriving DecidableEq

inductive Pc
  | out
  /-- `begin`: the load of the clock. -/
  | beginClock
  | body
  /-- `read_impl`: the load of the guard. -/
  | readGuard (a : CellAddr)
  /-- `read_impl`: the load of the word; `version` is what was noted. -/
  | readValue (a : CellAddr) (version : Word)
  /-- `commit`: the load of `try_acquire_guard` for the first entry. -/
  | acquire (e : CellAddr × Word) (rest : List (CellAddr × Word)) (held : List GuardIdx)
  /-- `commit`: the compare-and-swap of `try_acquire_guard`. -/
  | acquireCas (guard : Word) (e : CellAddr × Word) (rest : List (CellAddr × Word))
      (held : List GuardIdx)
  /-- `commit`: the release of the guards held, after a failure. -/
  | giveBack (held : List GuardIdx)
  /-- `commit`: the `fetch_add` of the clock. -/
  | tick (held : List GuardIdx)
  /-- `commit`: the entries of the read set still to check. -/
  | validate (rest : List ReadSetEntry) (held : List GuardIdx)
  /-- `commit`: the words still to write. -/
  | writeBack (rest : List (CellAddr × Word)) (held : List GuardIdx)
  /-- `commit`: the guards still to release with the commit version. -/
  | release (rest : List GuardIdx)
deriving DecidableEq

/-- A thread: its program counter, its `Transaction`, and what `commit` returned, until the
next transaction begins. Of that call, `taken` lists the guards it locked with the version
they had, `given` those it unlocked with the version it left, and `stores` counts its
stores to memory. -/
structure Tx where
  pc : Pc := .out
  active : Bool := false
  aborted : Bool := false
  startVersion : Word := 0
  commitVersion : Word := 0
  writeSet : List (CellAddr × Word) := []
  readSet : List ReadSetEntry := []
  bloomFilter : Word := 0
  committed : Option Bool := none
  hist : VersionLock.Tx CellAddr Word := {}
  taken : List (GuardIdx × Word) := []
  given : List (GuardIdx × Word) := []
  stores : ℕ := 0

structure Shared (T : Type) where
  gClock : Word := 1
  gGuards : GuardIdx → Word := fun _ => 0
  mem : CellAddr → Word
  book : Book CellAddr Word GuardIdx T := .empty 1

namespace Shared

variable {T : Type} (σ : Shared T)

def setGuard (ℓ : GuardIdx) (g : Word) (book : Book CellAddr Word GuardIdx T) : Shared T :=
  { σ with gGuards := Function.update σ.gGuards ℓ g, book := book }

end Shared

namespace Tx

variable (x : Tx)

def begin (clock : Word) : Tx :=
  { pc := .body, startVersion := clock, active := true, commitVersion := x.commitVersion }

def find (a : CellAddr) : Option Word :=
  if bloomMightContain x.bloomFilter a then x.writeSet.lookup a else none

def readImpl (a : CellAddr) : Tx :=
  match x.find a with
  | some v => { x with hist.trace := .read a v :: x.hist.trace }
  | none => { x with pc := .readGuard a }

def noteGuard (a : CellAddr) (guard : Word) : Tx :=
  { x with
    pc := .readValue a (guardVersion guard)
    readSet := x.readSet ++ [⟨a, guardVersion guard, isLocked guard⟩] }

def readValue (a : CellAddr) (version value : Word) : Tx :=
  { x with
    pc := .body
    hist.reads := ⟨a, version.toNat, value⟩ :: x.hist.reads
    hist.trace := .read a value :: x.hist.trace }

def writeImpl (a : CellAddr) (v : Word) : Tx :=
  { x with
    writeSet := putBack a v x.writeSet
    bloomFilter := if (x.writeSet.lookup a).isSome then x.bloomFilter
      else bloomSet x.bloomFilter a
    hist.trace := .write a v :: x.hist.trace }

def abortTx : Tx := { x with pc := .out, active := false, aborted := true, hist := {} }

def finish (ok : Bool) : Tx :=
  { x with pc := .out, active := false, aborted := !ok, committed := some ok, hist := {} }

/-- The lock loop of `commit`: the next entry whose guard is not held, or the clock. -/
def acquireNext (rest : List (CellAddr × Word)) (held : List GuardIdx) : Pc :=
  match rest.dropWhile fun e => getGuardIdx e.1 ∈ held with
  | [] => .tick held
  | e :: rest => .acquire e rest held

def fail (held : List GuardIdx) : Tx :=
  if held = [] then x.finish false else { x with pc := .giveBack held }

def sortWriteSet (ws : List (CellAddr × Word)) : List (CellAddr × Word) :=
  ws.insertionSort fun a b => a.1.val.toNat ≤ b.1.val.toNat

/-- `commit` up to its first access, with a non-empty write set. -/
def commitStart : Tx :=
  { x with
    pc := acquireNext (sortWriteSet x.writeSet) []
    writeSet := sortWriteSet x.writeSet }

end Tx

/-- The test of the validation loop: the guard is locked by another transaction, or has
another version. -/
def ReadSetEntry.stale (r : ReadSetEntry) (held : List GuardIdx) (guard : Word) : Bool :=
  isLocked guard && getGuardIdx r.dataAddr ∉ held || guardVersion guard != r.observedVersion

section Step

variable {T : Type} [DecidableEq T] (t : T) (σ : Shared T) (x : Tx)

/-- The successful end of validation: from here on the transaction is committed. -/
def validated (held : List GuardIdx) : Shared T × Tx :=
  ({ σ with book := σ.book.commit (x.hist.cv.getD 0) x.hist.trace },
    { x with pc := .writeBack x.writeSet held, hist.done := true })

/-- `commit` with an entry still to check, or at the end of the read set. -/
def validateFrom (rest : List ReadSetEntry) (held : List GuardIdx) : Shared T × Tx :=
  match rest with
  | [] => validated σ x held
  | _ :: _ => (σ, { x with pc := .validate rest held })

def incrementClock (held : List GuardIdx) : Shared T × Tx :=
  validateFrom { σ with gClock := σ.gClock + 1, book := σ.book.tick }
    { x with commitVersion := σ.gClock + 1, hist.cv := some (σ.book.clock + 1) } x.readSet held

def acquireCas (guard : Word) (e : CellAddr × Word) (rest : List (CellAddr × Word))
    (held : List GuardIdx) : Shared T × Tx :=
  let ℓ := getGuardIdx e.1
  if σ.gGuards ℓ = guard then
    (σ.setGuard ℓ (guard ||| lockMask) (σ.book.acquire ℓ t),
      { x with
        pc := Tx.acquireNext rest (held ++ [ℓ])
        taken := x.taken ++ [(ℓ, guardVersion guard)] })
  else if isLocked (σ.gGuards ℓ) then (σ, x.fail held)
  else (σ, { x with pc := .acquireCas (σ.gGuards ℓ) e rest held })

/-- `release_guard` of the first guard held. -/
def giveBack (ℓ : GuardIdx) (held : List GuardIdx) : Shared T × Tx :=
  let guard := σ.gGuards ℓ &&& ~~~lockMask
  let y := { x with given := x.given ++ [(ℓ, guardVersion guard)] }
  (σ.setGuard ℓ guard (σ.book.unlock ℓ (guardVersion guard).toNat), y.fail held)

def release (ℓ : GuardIdx) (rest : List GuardIdx) : Shared T × Tx :=
  let guard := withVersion x.commitVersion
  let y := { x with given := x.given ++ [(ℓ, guardVersion guard)] }
  (σ.setGuard ℓ guard
      (σ.book.release ℓ (guardVersion guard).toNat (x.hist.cv.getD 0)),
    if rest = [] then y.finish true else { y with pc := .release rest })

def next (c : TmCall CellAddr) : Option (Shared T × Tx) :=
  match x.pc, c with
  | .out, .begin => some (σ, { x with pc := .beginClock })
  | .beginClock, .tau => some (σ, x.begin σ.gClock)
  | .body, .read a => some (σ, x.readImpl a)
  | .body, .write a v => some (σ, x.writeImpl a v)
  | .body, .abort => some (σ, x.abortTx)
  | .body, .commit => some (σ, if x.writeSet = [] then x.finish true else x.commitStart)
  | .readGuard a, .tau => some (σ, x.noteGuard a (σ.gGuards (getGuardIdx a)))
  | .readValue a version, .tau => some (σ, x.readValue a version (σ.mem a))
  | .acquire e rest held, .tau =>
      some (σ,
        if isLocked (σ.gGuards (getGuardIdx e.1)) then x.fail held
        else { x with pc := .acquireCas (σ.gGuards (getGuardIdx e.1)) e rest held })
  | .acquireCas guard e rest held, .tau => some (acquireCas t σ x guard e rest held)
  | .acquireCas _ e rest held, .weak =>
      some (σ,
        if isLocked (σ.gGuards (getGuardIdx e.1)) then x.fail held
        else { x with pc := .acquireCas (σ.gGuards (getGuardIdx e.1)) e rest held })
  | .giveBack (ℓ :: held), .tau => some (giveBack σ x ℓ held)
  | .tick held, .tau => some (incrementClock σ x held)
  | .validate (r :: rest) held, .tau =>
      some (if r.stale held (σ.gGuards (getGuardIdx r.dataAddr)) then (σ, x.fail held)
        else validateFrom σ x rest held)
  | .writeBack (w :: rest) held, .tau =>
      some ({ σ with mem := Function.update σ.mem w.1 w.2 },
        { x with
          pc := if rest = [] then .release held else .writeBack rest held
          stores := x.stores + 1 })
  | .release (ℓ :: rest), .tau => some (release σ x ℓ rest)
  | _, _ => none

end Step

def step {T : Type} [DecidableEq T] :
    Threads (Shared T) Tx T → T × TmCall CellAddr → Option (Threads (Shared T) Tx T) :=
  Threads.step next

def init (T : Type) (m₀ : CellAddr → Word) : Threads (Shared T) Tx T where
  shared := { mem := m₀ }
  tx _ := {}

end TL2
