import Mathlib.Data.BitVec
import ClangTM.Serial.RedoLog
import ClangTM.Transition.Threads

/-!
# SPHT and NV-HTM

Two backends on hardware transactions with a redo log for durability. A hardware transaction
writes memory and records its writes in the log of its thread; after `_xend` the logged values are
stored to memory once more, in NV-HTM at the end of every transaction (`durable_commit`), in SPHT
at the end of every sixteenth one, for all transactions since the last time (`group_commit`). A
transaction that does not succeed in hardware runs on memory under a mutex.

A hardware transaction is one step: it takes effect at `_xend` or not at all. A fallback
transaction makes one access a step, and so does a replay. `real_tm_begin` leaves the mutex alone
if `tm_longjmp_ret` is set, and `real_tm_end` unlocks it all the same. No step reads `log`, the
transactions in the order in which they commit, and `start`, its length when a fallback
transaction began.
-/

namespace Spht

open Serial Transition

inductive Design
  | spht
  | nvhtm

inductive Access (A : Type)
  | read (a : A)
  | write (a : A) (v : BitVec 64)

def Access.isWrite {A : Type} : Access A → Bool
  | .read _ => false
  | .write _ _ => true

inductive Pc (A : Type)
  | out
  | ended
  | replay (rest : List (A × BitVec 64))
  | fallback (locked : Bool)
  deriving DecidableEq

structure Shared (A T : Type) where
  mem : A → BitVec 64
  mutex : Option T := none
  log : List (Trace A (BitVec 64)) := []

/-- `entries` is the log from `epoch_start` on. -/
structure Tx (A : Type) where
  pc : Pc A := .out
  entries : List (A × BitVec 64) := []
  epochStart : ℕ := 0
  readOnly : Bool := true
  txSeq : BitVec 64 := 0
  ops : Trace A (BitVec 64) := []
  start : ℕ := 0

inductive Call (A : Type)
  | tau
  | hardware (body : List (Access A))
  | fallback (longjmp : Bool)
  | read (a : A)
  | write (a : A) (v : BitVec 64)
  | commit

def groupCommitInterval : ℕ := 16

def Design.capacity : Design → ℕ
  | .spht => 65536
  | .nvhtm => 4096

variable {A T : Type} [DecidableEq A]

def perform (m : A → BitVec 64) : List (Access A) → Trace A (BitVec 64) → Trace A (BitVec 64)
  | [], ops => ops
  | .read a :: body, ops => perform m body (.read a (final m ops a) :: ops)
  | .write a v :: body, ops => perform m body (.write a v :: ops)

/-- The log entry of a write. SPHT drops it if the log is full, NV-HTM aborts. -/
def record (d : Design) (start : ℕ) (entries : List (A × BitVec 64)) (a : A) (v : BitVec 64) :
    Option (List (A × BitVec 64)) :=
  if (entries.lookup a).isSome ∨ start + entries.length < d.capacity then
    some (putBack a v entries)
  else
    match d with
    | .spht => some entries
    | .nvhtm => none

def recordAll (d : Design) (start : ℕ) : List (Access A) → List (A × BitVec 64) →
    Option (List (A × BitVec 64))
  | [], entries => some entries
  | .read _ :: body, entries => recordAll d start body entries
  | .write a v :: body, entries => (record d start entries a v).bind (recordAll d start body)

/-- The log at `_xbegin`. -/
def Tx.logged (d : Design) (x : Tx A) : List (A × BitVec 64) :=
  match d with
  | .spht => x.entries
  | .nvhtm => []

def hardware (d : Design) (σ : Shared A T) (x : Tx A) (body : List (Access A)) :
    Option (Shared A T × Tx A) :=
  (recordAll d x.epochStart body (x.logged d)).map fun entries =>
    ({ σ with
        mem := final σ.mem (perform σ.mem body [])
        log := σ.log ++ [perform σ.mem body []] },
      { x with pc := .ended, entries := entries, readOnly := !body.any Access.isWrite })

/-- What `commit` does after `_xend`. -/
def ended (d : Design) (x : Tx A) : Tx A :=
  match d with
  | .spht => { x with
      txSeq := x.txSeq + 1
      pc := if x.readOnly = false ∧ (x.txSeq + 1).toNat % groupCommitInterval = 0 then
        .replay x.entries else .out }
  | .nvhtm => { x with pc := if x.readOnly then .out else .replay x.entries }

def replayed (d : Design) (x : Tx A) : Tx A :=
  match d with
  | .spht => { x with
      pc := .out, entries := [], epochStart := x.epochStart + x.entries.length, readOnly := true }
  | .nvhtm => { x with pc := .out, entries := [], readOnly := true }

variable [DecidableEq T]

def next (d : Design) (t : T) (σ : Shared A T) (x : Tx A) (c : Call A) :
    Option (Shared A T × Tx A) :=
  match x.pc, c with
  | .out, .hardware body => hardware d σ x body
  | .ended, .tau => some (σ, ended d x)
  | .replay ((a, v) :: rest), .tau =>
      some ({ σ with mem := Function.update σ.mem a v }, { x with pc := .replay rest })
  | .replay [], .tau => some (σ, replayed d x)
  | .out, .fallback longjmp =>
      if longjmp then
        some (σ, { x with pc := .fallback false, ops := [], start := σ.log.length })
      else if σ.mutex = none then
        some ({ σ with mutex := some t },
          { x with pc := .fallback true, ops := [], start := σ.log.length })
      else none
  | .fallback _, .read a => some (σ, { x with ops := .read a (σ.mem a) :: x.ops })
  | .fallback _, .write a v =>
      some ({ σ with mem := Function.update σ.mem a v }, { x with ops := .write a v :: x.ops })
  | .fallback _, .commit =>
      some ({ σ with mutex := none, log := σ.log ++ [x.ops] }, { x with pc := .out })
  | _, _ => none

def step (d : Design) : Threads (Shared A T) (Tx A) T → T × Call A →
    Option (Threads (Shared A T) (Tx A) T) :=
  Threads.step (next d)

def init (T : Type) (m₀ : A → BitVec 64) : Threads (Shared A T) (Tx A) T :=
  ⟨{ mem := m₀ }, fun _ => {}⟩

/-- A hardware transaction commits only while the mutex is free, a fallback transaction takes it,
and a replay stores only what memory has. -/
def Subscribed (s : Threads (Shared A T) (Tx A) T) (l : T × Call A)
    (_ : Threads (Shared A T) (Tx A) T) : Prop :=
  match (s.tx l.1).pc, l.2 with
  | .out, .hardware _ => s.shared.mutex = none
  | .out, .fallback longjmp => longjmp = false
  | .replay ((a, v) :: _), .tau => s.shared.mem a = v
  | _, _ => True

instance (s : Threads (Shared A T) (Tx A) T) (l : T × Call A)
    (s' : Threads (Shared A T) (Tx A) T) : Decidable (Subscribed s l s') := by
  unfold Subscribed
  split <;> infer_instance

end Spht
