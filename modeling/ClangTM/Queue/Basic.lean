import Mathlib.Algebra.Group.Nat.Defs
import Mathlib.Logic.Function.Basic
import ClangTM.Transition.Threads

/-!
# The queue runtime

`tm_enqueue` and `tm_enqueue_ex` hand a transaction to a pool of workers. The pool has several
queues, each under its own mutex; a worker scans them from a rotating start, waits a little on the
first one, and leaves when it sees the shutdown flag. A thread counts the tasks that it has
enqueued and that have not finished, and `tm_wait_prev_tx` waits until that count is not positive.

A step makes one access to the shared state; a critical section of a queue mutex is one step, and a
`wait_for` may return at any time, as its time limit lets it. `g_tm_queue_active` is local to a
thread, and `tm_queue_init` sets it for its caller only: the other threads run their tasks at once.
The counters of the round robin are of type `int`. A negative one gives a negative index, after
which the behaviour is undefined; the thread then makes no step any more.

No step reads `issued`, `returned`, `ran` and `due`: the tasks that have been handed over, those
whose call has returned, those that have been executed, and those whose call had returned when
`tm_queue_shutdown` was called.
-/

namespace Queue

open Transition

/-- A closure in a queue. It has a completion record if it comes from `tm_enqueue_ex`; the record
is named by the task. -/
structure Task (T : Type) where
  id : ℕ
  owner : T
  tracked : Bool
  deriving DecidableEq

/-- The numbers of queues and of workers are taken to be at least one. -/
structure Pool (T : Type) where
  numQueues : ℕ
  workers : List T
  numQueues_pos : 0 < numQueues
  workers_ne : workers ≠ []

inductive Ret
  | start | enqueue | waitTx | waitPrev | shutdown
  deriving DecidableEq

/-- The next access of a thread: `inline` to `push` are in an enqueue call, `cas` and `join` in
`shutdown`, and the ones from `pick` on in `workerLoop`. -/
inductive Pc (T : Type) (n : ℕ)
  | out (last : Ret)
  | inline (k : Task T)
  | count (k : Task T) (queue : ℤ)
  | guard (k : Task T) (queue : ℤ)
  | offer (k : Task T) (queue : ℤ)
  | route (k : Task T) (queue : ℤ)
  | push (k : Task T) (i : Fin n)
  | spinTx (tx : BitVec 64) (id : ℕ)
  | spinPrev
  | cas
  | join (rest : List T)
  | pick
  | scan (start attempt : ℕ)
  | wait (start : ℕ)
  | check (start : ℕ)
  | recheck
  | run (k : Task T)
  | signal (k : Task T)
  | retire (k : Task T)
  | exited
  | fatal
  | wild
  deriving DecidableEq

structure Shared (T : Type) (n : ℕ) where
  queues : Fin n → List (Task T) := fun _ => []
  shutdown : Bool := false
  nextQueue : BitVec 32 := 0
  nextWorkerQueue : BitVec 32 := 0
  nextTxId : BitVec 64 := 1
  executor : Bool := true
  pending : T → BitVec 32 := fun _ => 0
  done : ℕ → Bool := fun _ => false
  exited : List T := []
  issued : List (Task T) := []
  returned : List (Task T) := []
  ran : List (Task T) := []
  due : List (Task T) := []

structure Tx (T : Type) (n : ℕ) where
  pc : Pc T n
  active : Bool
  completions : BitVec 64 → Option ℕ := fun _ => none

inductive Call
  | tau
  | enqueue
  | enqueueEx (queue : ℤ)
  | waitTx (tx : BitVec 64)
  | waitPrev
  | shutdown

/-- `c % num_queues_` in `int` arithmetic, as an index; `none` if it is negative. -/
def slot (n : ℕ) (c : BitVec 32) : Option (Fin n) :=
  if h : 0 ≤ c.toInt.tmod n ∧ (c.toInt.tmod n).toNat < n then some ⟨_, h.2⟩ else none

variable {T : Type} [DecidableEq T] {n : ℕ}

def Shared.finish (σ : Shared T n) (k : Task T) : Shared T n :=
  { σ with ran := σ.ran ++ [k] }

def Shared.leave (σ : Shared T n) (k : Task T) : Shared T n :=
  { σ with returned := σ.returned ++ [k] }

def Shared.task (σ : Shared T n) (t : T) (tracked : Bool) : Task T :=
  ⟨σ.issued.length, t, tracked⟩

/-- The start of both enqueue calls: a thread that is not active runs the task itself. -/
def submit (t : T) (σ : Shared T n) (x : Tx T n) (tracked : Bool) (queue : ℤ) :
    Shared T n × Tx T n :=
  ({ σ with issued := σ.issued ++ [σ.task t tracked] },
    { x with pc := if x.active then .count (σ.task t tracked) queue
        else .inline (σ.task t tracked) })

/-- The identifier and the completion record that `tm_enqueue_ex` adds. -/
def track (t : T) (σ : Shared T n) (x : Tx T n) (queue : ℤ) : Shared T n × Tx T n :=
  let p := submit t σ x true queue
  if x.active then
    ({ p.1 with nextTxId := σ.nextTxId + 1 },
      { p.2 with completions := Function.update x.completions σ.nextTxId (some σ.issued.length) })
  else p

def route (σ : Shared T n) (x : Tx T n) (k : Task T) (queue : ℤ) : Shared T n × Tx T n :=
  if h : 0 ≤ queue ∧ queue.toNat < n then (σ, { x with pc := .push k ⟨_, h.2⟩ })
  else
    ({ σ with nextQueue := σ.nextQueue + 1 },
      { x with pc := match slot n σ.nextQueue with
        | some i => .push k i
        | none => .wild })

def push (σ : Shared T n) (x : Tx T n) (k : Task T) (i : Fin n) : Shared T n × Tx T n :=
  ({ σ.leave k with queues := Function.update σ.queues i (σ.queues i ++ [k]) },
    { x with pc := .out .enqueue })

/-- Takes the first task of a queue; a worker that finds none goes on at `pc`. -/
def pop (σ : Shared T n) (x : Tx T n) (i : Fin n) (pc : Pc T n) : Shared T n × Tx T n :=
  match σ.queues i with
  | k :: rest => ({ σ with queues := Function.update σ.queues i rest }, { x with pc := .run k })
  | [] => (σ, { x with pc := pc })

/-- Where the scan goes on after the given attempt. -/
def rescan (n start attempt : ℕ) : Pc T n :=
  if attempt + 1 < n then .scan start (attempt + 1) else .recheck

/-- The critical section of one attempt of a scan. -/
def scan (σ : Shared T n) (x : Tx T n) (start attempt : ℕ) : Shared T n × Tx T n :=
  match slot n (.ofNat 32 (start + attempt)) with
  | some i => pop σ x i (if attempt = 0 then .wait start else rescan n start attempt)
  | none => (σ, { x with pc := .wild })

/-- `goto done` if the flag is set. -/
def leaveOr (t : T) (σ : Shared T n) (x : Tx T n) (pc : Pc T n) : Shared T n × Tx T n :=
  if σ.shutdown then ({ σ with exited := t :: σ.exited }, { x with pc := .exited })
  else (σ, { x with pc := pc })

def waitTx (x : Tx T n) (tx : BitVec 64) : Tx T n :=
  if x.active = true ∧ tx ≠ 0 then
    match x.completions tx with
    | some id => { x with pc := .spinTx tx id }
    | none => { x with pc := .out .waitTx }
  else { x with pc := .out .waitTx }

def next (P : Pool T) (t : T) (σ : Shared T P.numQueues) (x : Tx T P.numQueues) (c : Call) :
    Option (Shared T P.numQueues × Tx T P.numQueues) :=
  match x.pc, c with
  | .out _, .enqueue => some (submit t σ x false (-1))
  | .out _, .enqueueEx queue => some (track t σ x queue)
  | .inline k, .tau => some ((σ.finish k).leave k, { x with pc := .out .enqueue })
  | .count k queue, .tau =>
      some ({ σ with pending := Function.update σ.pending t (σ.pending t + 1) },
        { x with pc := .guard k queue })
  | .guard k queue, .tau => some (σ, { x with pc := if σ.executor then .offer k queue else .fatal })
  | .offer k queue, .tau =>
      if σ.shutdown then some (σ.leave k, { x with pc := .out .enqueue })
      else some (σ, { x with pc := .route k queue })
  | .route k queue, .tau => some (route σ x k queue)
  | .push k i, .tau => some (push σ x k i)
  | .out _, .waitTx tx => some (σ, waitTx x tx)
  | .spinTx tx id, .tau =>
      if σ.done id then
        some (σ, { x with
          pc := .out .waitTx, completions := Function.update x.completions tx none })
      else some (σ, x)
  | .out _, .waitPrev => some (σ, { x with pc := if x.active then .spinPrev else .out .waitPrev })
  | .spinPrev, .tau =>
      if 0 < (σ.pending t).toInt then some (σ, x) else some (σ, { x with pc := .out .waitPrev })
  | .out _, .shutdown =>
      if σ.executor then some ({ σ with due := σ.returned }, { x with pc := .cas })
      else some ({ σ with due := σ.returned }, { x with pc := .out .shutdown, active := false })
  | .cas, .tau =>
      some ({ σ with shutdown := true },
        { x with pc := .join (if σ.shutdown then [] else P.workers) })
  | .join [], .tau =>
      some ({ σ with executor := false }, { x with pc := .out .shutdown, active := false })
  | .join (w :: rest), .tau => if w ∈ σ.exited then some (σ, { x with pc := .join rest }) else none
  | .pick, .tau =>
      some ({ σ with nextWorkerQueue := σ.nextWorkerQueue + 1 },
        { x with pc := match slot P.numQueues σ.nextWorkerQueue with
          | some i => .scan i 0
          | none => .wild })
  | .scan start attempt, .tau => some (scan σ x start attempt)
  | .wait start, .tau =>
      match slot P.numQueues (.ofNat 32 start) with
      | some i => some (pop σ x i (.check start))
      | none => none
  | .check start, .tau => some (leaveOr t σ x (rescan P.numQueues start 0))
  | .recheck, .tau => some (leaveOr t σ x .pick)
  | .run k, .tau =>
      some (σ.finish k, { x with pc := if k.tracked then .signal k else .retire k })
  | .signal k, .tau =>
      some ({ σ with done := Function.update σ.done k.id true }, { x with pc := .retire k })
  | .retire k, .tau =>
      some ({ σ with pending := Function.update σ.pending k.owner (σ.pending k.owner - 1) },
        { x with pc := .pick })
  | _, _ => none

def step (P : Pool T) : Threads (Shared T P.numQueues) (Tx T P.numQueues) T → T × Call →
    Option (Threads (Shared T P.numQueues) (Tx T P.numQueues) T) :=
  Threads.step (next P)

def init (P : Pool T) (main : T) : Threads (Shared T P.numQueues) (Tx T P.numQueues) T where
  shared := {}
  tx t := { pc := if t ∈ P.workers then .pick else .out .start, active := decide (t = main) }

/-- The thread that has called `tm_queue_init` shuts the pool down; a worker looks at the flag,
once it is set, only when all queues are empty; and no counter goes over the range of `int`. -/
def Orderly (P : Pool T) (main : T) (s : Threads (Shared T P.numQueues) (Tx T P.numQueues) T)
    (l : T × Call) (_ : Threads (Shared T P.numQueues) (Tx T P.numQueues) T) : Prop :=
  match (s.tx l.1).pc, l.2 with
  | .out _, .shutdown => l.1 = main
  | .check _, _ | .recheck, _ => s.shared.shutdown = true → ∀ i, (s.shared.queues i).isEmpty = true
  | .count _ _, _ => (s.shared.pending l.1).toNat + 1 < 2 ^ 31
  | .route _ _, _ => s.shared.nextQueue.toNat < 2 ^ 31
  | .pick, _ => s.shared.nextWorkerQueue.toNat < 2 ^ 31
  | .scan start attempt, _ => start + attempt < 2 ^ 31
  | _, _ => True

instance (P : Pool T) (main : T) (s : Threads (Shared T P.numQueues) (Tx T P.numQueues) T)
    (l : T × Call) (s' : Threads (Shared T P.numQueues) (Tx T P.numQueues) T) :
    Decidable (Orderly P main s l s') := by
  unfold Orderly
  split <;> infer_instance

end Queue
