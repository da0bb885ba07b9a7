import ClangTM.Memory
import ClangTM.Serial.Trace
import ClangTM.Transition.Threads

/-!
# GaccO

The backend `gacco`: every access of a transaction takes the lock of its address, by a weak
compare-and-swap that is tried up to 4097 times, and a write goes to memory at once, after the
old value has been put into an undo log. All locks are released at the end; a transaction that
does not get a lock undoes its writes first, and restarts.

Cells are addresses, each accessed with one width, that do not overlap; an aligned access of at
most 8 bytes has one lock. A step is one access to the shared state, together with the local work
up to the next one. Nested calls, which do nothing, the backoff and `g_aborted`, which is never
set, are left out, and so are the values and widths in `g_reads` and `g_writes`, which nothing
reads. No step reads `log`, the transactions in the order in which they start to release their
locks, and `ops` of a thread.
-/

namespace GaccO

open Serial Transition

abbrev Addr := Word

abbrev LockIdx := BitVec 20

def lockIdx (a : Addr) : LockIdx := (a >>> 4).setWidth 20

def spinBound : ℕ := 4096

inductive Access
  | read (a : Addr)
  | write (a : Addr) (v : Word)
deriving DecidableEq

def Access.addr : Access → Addr
  | .read a | .write a _ => a

inductive Pc
  /-- `tm_init_thread` has not been called. -/
  | fresh
  | out
  | body
  /-- `acquire_lock`, after some failures. -/
  | acquire (k : Access) (failures : ℕ)
  /-- `do_read`: the load. -/
  | load (a : Addr)
  /-- `do_write`: the load of the old value, on the first write of an address. -/
  | loadOld (a : Addr) (v : Word)
  /-- `do_write`: the store. -/
  | store (a : Addr) (v : Word)
  /-- `real_tm_end`: the locks of the reads still to look at. -/
  | validate (rest : List Addr)
  /-- `rollback_writes`: what is still to undo. -/
  | undo (rest : List (Addr × Word))
  /-- `release_all_locks`: the addresses whose locks are still to release. -/
  | release (rest : List Addr)
deriving DecidableEq

structure Tx where
  pc : Pc := .fresh
  tid : Word := 0
  locksHeld : List Addr := []
  reads : List Addr := []
  writes : List Addr := []
  undo : List (Addr × Word) := []
  ops : Trace Addr Word := []

/-- The holders of the locks, the next thread identifier, memory, and the history. -/
structure Shared where
  locks : LockIdx → Word := fun _ => 0
  nextTid : Word := 1
  mem : Addr → Word
  log : List (Trace Addr Word) := []

/-- What a thread does: a call, the next access of the function it is in, or a compare-and-swap
that fails without a reason. -/
inductive Call
  | initThread
  | begin
  | read (a : Addr)
  | write (a : Addr) (v : Word)
  | commit
  | abort
  | tau
  | weak

namespace Tx

variable (x : Tx)

def acquired (k : Access) : Tx :=
  match k with
  | .read a => { x with pc := .load a }
  | .write a v => { x with pc := if a ∈ x.writes then .store a v else .loadOld a v }

/-- `release_all_locks`, with locks still to release or at its end. -/
def releaseFrom (rest : List Addr) : Tx :=
  match rest with
  | [] => { pc := .out, tid := x.tid }
  | _ :: _ => { x with pc := .release rest }

/-- `rollback_writes`, with entries still to undo or at its end. -/
def undoFrom (rest : List (Addr × Word)) : Tx :=
  match rest with
  | [] => x.releaseFrom x.locksHeld
  | _ :: _ => { x with pc := .undo rest }

/-- `real_tm_abort`, `bail_deadlock` and the failure of `real_tm_end`. -/
def restart : Tx := x.undoFrom x.undo.reverse

/-- A compare-and-swap of `acquire_lock` has failed. -/
def failed (k : Access) (failures : ℕ) : Tx :=
  if failures < spinBound then { x with pc := .acquire k (failures + 1) } else x.restart

end Tx

variable (σ : Shared) (x : Tx)

/-- A compare-and-swap of `acquire_lock`. -/
def acquire (weak : Bool) (k : Access) (failures : ℕ) : Shared × Tx :=
  if σ.locks (lockIdx k.addr) = 0 ∧ weak = false then
    ({ σ with locks := Function.update σ.locks (lockIdx k.addr) x.tid },
      { x with locksHeld := x.locksHeld ++ [k.addr] }.acquired k)
  else (σ, if σ.locks (lockIdx k.addr) = x.tid then x.acquired k else x.failed k failures)

/-- `real_tm_end`, with reads still to look at or at the end of the validation. -/
def validateFrom (rest : List Addr) : Shared × Tx :=
  match rest with
  | [] => ({ σ with log := σ.log ++ [x.ops] }, x.releaseFrom x.locksHeld)
  | _ :: _ => (σ, { x with pc := .validate rest })

def next (_ : T) (σ : Shared) (x : Tx) (c : Call) : Option (Shared × Tx) :=
  match x.pc, c with
  | .fresh, .initThread =>
      some ({ σ with nextTid := σ.nextTid + 1 }, { pc := .out, tid := σ.nextTid })
  | .out, .begin => some (σ, { pc := .body, tid := x.tid })
  | .body, .read a => some (σ, { x with pc := .acquire (.read a) 0 })
  | .body, .write a v => some (σ, { x with pc := .acquire (.write a v) 0 })
  | .body, .commit => some (validateFrom σ x x.reads)
  | .body, .abort => some (σ, x.restart)
  | .acquire k failures, .tau => some (acquire σ x false k failures)
  | .acquire k failures, .weak => some (acquire σ x true k failures)
  | .load a, .tau =>
      some (σ, { x with pc := .body, reads := x.reads ++ [a], ops := .read a (σ.mem a) :: x.ops })
  | .loadOld a v, .tau => some (σ, { x with pc := .store a v, undo := x.undo ++ [(a, σ.mem a)] })
  | .store a v, .tau =>
      some ({ σ with mem := Function.update σ.mem a v },
        { x with pc := .body, writes := x.writes ++ [a], ops := .write a v :: x.ops })
  | .validate (a :: rest), .tau =>
      some (if σ.locks (lockIdx a) ≠ x.tid then (σ, x.restart) else validateFrom σ x rest)
  | .undo (u :: rest), .tau =>
      some ({ σ with mem := Function.update σ.mem u.1 u.2 }, x.undoFrom rest)
  | .release (a :: rest), .tau =>
      some ({ σ with locks := Function.update σ.locks (lockIdx a) 0 }, x.releaseFrom rest)
  | _, _ => none

def step {T : Type} [DecidableEq T] :
    Threads Shared Tx T → T × Call → Option (Threads Shared Tx T) :=
  Threads.step next

def init (T : Type) (m₀ : Addr → Word) : Threads Shared Tx T where
  shared := { mem := m₀ }
  tx _ := {}

end GaccO
