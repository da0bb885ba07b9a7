import ClangTM.Rust.Memory
import ClangTM.Transition.Threads

/-!
# The left-right backend

`leftright_single` keeps two maps from addresses to values, `LEFT` and `RIGHT`. Readers
use the copy that `ACTIVE` names and announce themselves on the counter of that copy.
A writer takes a lock at its first write and writes to the other copy; `tm_commit` is
meant to make that copy the active one, to wait for the readers of the old one, and to
bring the old one up to date.

A step is one access to a global, with the local work that follows it; a loop over the
write set also takes a step of its own when its list is empty. A thread may make any
call at any time, as in the source, where only `tm_begin` starts a transaction but no
call asks for one. The reader counters count threads, and are not cut to 64 bits.
-/

namespace Rust.LeftRight

open Transition

inductive Copy
  | left
  | right
deriving DecidableEq

def activeCopy (active : Bool) : Copy := if active then .right else .left

def inactiveCopy (active : Bool) : Copy := if active then .left else .right

/-- `dst` of `tm_commit`, the copy that was active, and whose counter it waits for. -/
def dst (activeWasLeft : Bool) : Copy := if activeWasLeft then .left else .right

def src (activeWasLeft : Bool) : Copy := if activeWasLeft then .right else .left

structure WriteEntry where
  addr : Addr
  val : Word
  oldVal : Option Word
  width : Width
deriving DecidableEq

/-- The globals: the copies, `ACTIVE`, the reader counters, `LOCK`, and memory. -/
structure Shared where
  maps : Copy → Addr → Option Word := fun _ _ => none
  active : Bool := false
  readers : Copy → ℕ := fun _ => 0
  lock : Bool := false
  mem : Addr → BitVec 8

namespace Shared

/-- `SyncMap::write` and `SyncMap::remove`. -/
def setMap (σ : Shared) (c : Copy) (a : Addr) (v : Option Word) : Shared :=
  { σ with maps := Function.update σ.maps c (Function.update (σ.maps c) a v) }

def setReaders (σ : Shared) (c : Copy) (n : ℕ) : Shared :=
  { σ with readers := Function.update σ.readers c n }

end Shared

inductive Pc
  /-- In no function of the backend. -/
  | idle
  /-- `write_lock_acquire`: the compare-and-swap. -/
  | writeCas (a : Addr) (v : Word) (w : Width)
  /-- `write_word`: the load of `ACTIVE`. -/
  | writeActive (a : Addr) (v : Word) (w : Width)
  /-- `write_word`: `inactive.read`. -/
  | writeOld (a : Addr) (v : Word) (w : Width) (inactive : Copy)
  /-- `write_word`: `inactive.write`. -/
  | writeMap (a : Addr) (v : Word) (w : Width) (inactive : Copy) (oldVal : Option Word)
  /-- `tm_abort`: the load of `ACTIVE`. -/
  | abortActive (ws : List WriteEntry)
  /-- `tm_abort`: the writes still to undo. -/
  | abortUndo (inactive : Copy) (rest : List WriteEntry)
  /-- `tm_commit`: the load of `ACTIVE`. -/
  | commitActive (ws : List WriteEntry)
  /-- `tm_commit`: the store to `ACTIVE`. -/
  | commitFlip (activeWasLeft : Bool) (ws : List WriteEntry)
  /-- `tm_commit`: the load of the counter of the old copy. -/
  | commitDrain (activeWasLeft : Bool) (ws : List WriteEntry)
  /-- `tm_commit`: `src.read`, for the entries still to copy. -/
  | commitSyncRead (activeWasLeft : Bool) (rest ws : List WriteEntry)
  /-- `tm_commit`: `dst.write`. -/
  | commitSyncWrite (activeWasLeft : Bool) (a : Addr) (v : Word) (rest ws : List WriteEntry)
  /-- `tm_commit`: the entries still to write to memory. -/
  | commitMem (rest : List WriteEntry)
  /-- `write_lock_release`. -/
  | release
  /-- `read_word_bytes`: the first load of `ACTIVE`. -/
  | readActive (a : Addr) (w : Width)
  /-- `read_word_bytes`: the `fetch_add`. -/
  | readAdd (a : Addr) (w : Width) (seen : Bool)
  /-- `read_word_bytes`: the second load of `ACTIVE`. -/
  | readCheck (a : Addr) (w : Width) (seen : Bool)
  /-- `read_word_bytes`: the `fetch_sub` before a retry. -/
  | readBack (a : Addr) (w : Width) (seen : Bool)
  /-- `read_word_bytes`: the read of the active copy. -/
  | readMap (a : Addr) (w : Width) (active : Bool)
  /-- `read_word_bytes`: the `fetch_sub` after the read. -/
  | readSub (a : Addr) (w : Width) (active : Bool) (val : Option Word)
  /-- `read_word_bytes`: the load from memory. -/
  | readMem (a : Addr) (w : Width)
deriving DecidableEq

inductive Call
  | begin
  | read (a : Addr) (w : Width)
  | write (a : Addr) (v : Word) (w : Width)
  | commit
  | abort
  | tau
deriving DecidableEq

/-- The local state of a thread; `result` is what its last read returned. -/
structure Tx where
  pc : Pc := .idle
  writeSet : List WriteEntry := []
  lockHeld : Bool := false
  result : Option Word := none

namespace Tx

def readWordBytes (x : Tx) (a : Addr) (w : Width) : Tx :=
  match x.writeSet.reverse.find? fun e => e.addr = a with
  | some e => { x with result := some e.val }
  | none => { x with pc := .readActive a w }

def writeWord (x : Tx) (a : Addr) (v : Word) (w : Width) : Tx :=
  { x with pc := if x.lockHeld then .writeActive a v w else .writeCas a v w }

def tmAbort (x : Tx) : Tx :=
  if x.writeSet = [] then { x with pc := .release }
  else { x with pc := .abortActive x.writeSet, writeSet := [] }

def tmCommit (x : Tx) : Tx :=
  if x.writeSet = [] then { x with pc := .release }
  else { x with pc := .commitActive x.writeSet, writeSet := [] }

def call (x : Tx) : Call → Option Tx
  | .begin => some { x with writeSet := [], lockHeld := false }
  | .read a w => some (x.readWordBytes a w)
  | .write a v w => some (x.writeWord a v w)
  | .commit => some x.tmCommit
  | .abort => some x.tmAbort
  | .tau => none

/-- `read_word_bytes` once it is no longer registered. -/
def readDone (x : Tx) (a : Addr) (w : Width) : Option Word → Tx
  | some v => { x with pc := .idle, result := some v }
  | none => { x with pc := .readMem a w }

end Tx

def access (σ : Shared) (x : Tx) : Shared × Tx :=
  match x.pc with
  | .idle => (σ, x)
  | .writeCas a v w =>
      if σ.lock then (σ, x)
      else ({ σ with lock := true }, { x with pc := .writeActive a v w, lockHeld := true })
  | .writeActive a v w => (σ, { x with pc := .writeOld a v w (inactiveCopy σ.active) })
  | .writeOld a v w inactive => (σ, { x with pc := .writeMap a v w inactive (σ.maps inactive a) })
  | .writeMap a v w inactive oldVal =>
      (σ.setMap inactive a (some v),
        { x with pc := .idle, writeSet := x.writeSet ++ [⟨a, v, oldVal, w⟩] })
  | .abortActive ws => (σ, { x with pc := .abortUndo (inactiveCopy σ.active) ws.reverse })
  | .abortUndo inactive (e :: rest) =>
      (σ.setMap inactive e.addr e.oldVal, { x with pc := .abortUndo inactive rest })
  | .abortUndo _ [] => (σ, { x with pc := .release })
  | .commitActive ws => (σ, { x with pc := .commitFlip (!σ.active) ws })
  | .commitFlip activeWasLeft ws =>
      ({ σ with active := !activeWasLeft }, { x with pc := .commitDrain activeWasLeft ws })
  | .commitDrain activeWasLeft ws =>
      if 0 < σ.readers (dst activeWasLeft) then (σ, x)
      else (σ, { x with pc := .commitSyncRead activeWasLeft ws ws })
  | .commitSyncRead activeWasLeft (e :: rest) ws =>
      match σ.maps (src activeWasLeft) e.addr with
      | some v => (σ, { x with pc := .commitSyncWrite activeWasLeft e.addr v rest ws })
      | none => (σ, { x with pc := .commitSyncRead activeWasLeft rest ws })
  | .commitSyncRead _ [] ws => (σ, { x with pc := .commitMem ws })
  | .commitSyncWrite activeWasLeft a v rest ws =>
      (σ.setMap (dst activeWasLeft) a (some v),
        { x with pc := .commitSyncRead activeWasLeft rest ws })
  | .commitMem (e :: rest) =>
      ({ σ with mem := storeBytes σ.mem e.addr e.val e.width.bytes },
        { x with pc := .commitMem rest })
  | .commitMem [] => (σ, { x with pc := .release })
  | .release =>
      (if x.lockHeld then { σ with lock := false } else σ,
        { x with pc := .idle, lockHeld := false })
  | .readActive a w => (σ, { x with pc := .readAdd a w σ.active })
  | .readAdd a w seen =>
      (σ.setReaders (activeCopy seen) (σ.readers (activeCopy seen) + 1),
        { x with pc := .readCheck a w seen })
  | .readCheck a w seen =>
      (σ, { x with pc := if σ.active = seen then .readMap a w seen else .readBack a w seen })
  | .readBack a w seen =>
      (σ.setReaders (activeCopy seen) (σ.readers (activeCopy seen) - 1),
        { x with pc := .readActive a w })
  | .readMap a w active =>
      (σ, { x with pc := .readSub a w active (σ.maps (activeCopy active) a) })
  | .readSub a w active val =>
      (σ.setReaders (activeCopy active) (σ.readers (activeCopy active) - 1),
        x.readDone a w val)
  | .readMem a w => (σ, { x with pc := .idle, result := some (loadBytes σ.mem a w.bytes) })

def next (σ : Shared) (x : Tx) (c : Call) : Option (Shared × Tx) :=
  match x.pc, c with
  | .idle, c => (x.call c).map fun x' => (σ, x')
  | _, .tau => some (access σ x)
  | _, _ => none

def step {T : Type} [DecidableEq T] :
    Threads Shared Tx T → T × Call → Option (Threads Shared Tx T) :=
  Threads.step fun _ => next

def init (T : Type) (m₀ : Addr → BitVec 8) : Threads Shared Tx T where
  shared := { mem := m₀ }
  tx _ := {}

end Rust.LeftRight
