import ClangTM.Serial.Serializable
import ClangTM.Transition.Threads

/-!
# DistributedSGL

Several processes run transactions on their own copies of the TM symbols. The symbols lie one
after another in a file that all processes map; a transaction takes a lock in that file, copies the
file to the symbols of its process, runs on them, and copies them back before it unlocks. Three
copies are made without the lock: by `tm_init`, by the first `real_tm_begin` of a thread and by
`tm_exit`.

Bytes are named by their position in the file, and a copied byte is one step. The threads of one
process share its symbols. `tm_init` of a process is called once, before its transactions. `poke`
is a plain store of the program outside of transactions. The last process that exits removes the
file; the next `tm_init` makes a new one.

No step reads `started`, set when the lock is first taken, `passed`, set when a process leaves
`tm_init`, and `log`, the transactions in the order of their unlocks.
-/

namespace DistributedSGL

open Serial Transition

abbrev Byte := BitVec 8

/-- A process before `tm_init`, in it (by the given thread), after it, and without the mapping. -/
inductive Stage (T : Type)
  | fresh
  | initing (t : T)
  | ready
  | gone
  deriving DecidableEq

def Stage.up {T : Type} : Stage T → Bool
  | .ready | .gone => true
  | _ => false

inductive Pc
  | out
  | initCas (nproc : ℤ)
  | initReset
  | initStore (i : ℕ)
  | initLoad (i : ℕ)
  | initReady
  | barrier
  | publish (i : ℕ)
  | lock
  | load (i : ℕ)
  | body
  | store (i : ℕ)
  | epoch
  | unlock
  | exitStore (i : ℕ)
  | exitSub
  | exitLoad
  deriving DecidableEq

structure Shared (Q T : Type) where
  image : ℕ → Byte
  loc : Q → ℕ → Byte
  lock : Option T := none
  readyCount : ℤ := 0
  processCount : ℤ := 0
  epoch : BitVec 64 := 0
  unlinked : Bool := false
  stage : Q → Stage T := fun _ => .fresh
  started : Bool := false
  passed : Bool := false
  log : List (Trace ℕ Byte) := []

structure Tx where
  pc : Pc := .out
  first : Bool := true
  ops : Trace ℕ Byte := []

inductive Call
  | tau
  | init (nproc : ℤ)
  | poke (i : ℕ) (v : Byte)
  | begin
  | read (i : ℕ)
  | write (i : ℕ) (v : Byte)
  | commit
  | exit

variable {Q T : Type} [DecidableEq Q]

/-- The file that `open` gives: a new one, full of zeros, if the last one has been removed. -/
def Shared.opened (σ : Shared Q T) : Shared Q T :=
  if σ.unlinked then
    { σ with
      image := fun _ => 0, lock := none, readyCount := 0, processCount := 0, unlinked := false }
  else σ

/-- One byte of `sync_local_to_shared`. -/
def Shared.toShared (σ : Shared Q T) (q : Q) (i : ℕ) : Shared Q T :=
  { σ with image := Function.update σ.image i (σ.loc q i) }

/-- A store to a symbol of the process. -/
def Shared.assign (σ : Shared Q T) (q : Q) (i : ℕ) (v : Byte) : Shared Q T :=
  { σ with loc := Function.update σ.loc q (Function.update (σ.loc q) i v) }

/-- One byte of `sync_shared_to_local`. -/
def Shared.toLocal (σ : Shared Q T) (q : Q) (i : ℕ) : Shared Q T :=
  σ.assign q i (σ.image i)

def Shared.setStage (σ : Shared Q T) (q : Q) (g : Stage T) : Shared Q T :=
  { σ with stage := Function.update σ.stage q g }

def Tx.goto (x : Tx) (pc : Pc) : Tx :=
  { x with pc := pc }

variable [DecidableEq T]

/-- `n` is the size of the TM symbols, and `q` the process of the thread. -/
def next (n : ℕ) (proc : T → Q) (t : T) (σ : Shared Q T) (x : Tx) (c : Call) :
    Option (Shared Q T × Tx) :=
  let q := proc t
  match x.pc, c with
  | .out, .init nproc =>
      if σ.stage q = .fresh then
        some (σ.opened.setStage q (.initing t), x.goto (.initCas (max 1 nproc)))
      else none
  | .initCas nproc, .tau =>
      if σ.processCount = 0 then some ({ σ with processCount := nproc }, x.goto .initReset)
      else some (σ, x.goto (.initLoad 0))
  | .initReset, .tau => some ({ σ with readyCount := 0 }, x.goto (.initStore 0))
  | .initStore i, .tau =>
      if i < n then some (σ.toShared q i, x.goto (.initStore (i + 1)))
      else some (σ, x.goto .initReady)
  | .initLoad i, .tau =>
      if i < n then some (σ.toLocal q i, x.goto (.initLoad (i + 1)))
      else some (σ, x.goto .initReady)
  | .initReady, .tau => some ({ σ with readyCount := σ.readyCount + 1 }, x.goto .barrier)
  | .barrier, .tau =>
      if σ.readyCount < σ.processCount then some (σ, x)
      else some ({ σ.setStage q .ready with passed := true }, x.goto .out)
  | .out, .poke i v => some (σ.assign q i v, x)
  | .out, .begin =>
      if σ.stage q = .ready then
        some (σ, x.goto (if x.first then .publish 0 else .lock))
      else none
  | .publish i, .tau =>
      if i < n then some (σ.toShared q i, x.goto (.publish (i + 1)))
      else some (σ, { x with pc := .lock, first := false })
  | .lock, .tau =>
      if σ.lock = none then
        some ({ σ with lock := some t, started := true }, { x with pc := .load 0, ops := [] })
      else some (σ, x)
  | .load i, .tau =>
      if i < n then some (σ.toLocal q i, x.goto (.load (i + 1))) else some (σ, x.goto .body)
  | .body, .read i =>
      if i < n then some (σ, { x with ops := .read i (σ.loc q i) :: x.ops }) else none
  | .body, .write i v =>
      if i < n then some (σ.assign q i v, { x with ops := .write i v :: x.ops }) else none
  | .body, .commit => some (σ, x.goto (.store 0))
  | .store i, .tau =>
      if i < n then some (σ.toShared q i, x.goto (.store (i + 1))) else some (σ, x.goto .epoch)
  | .epoch, .tau => some ({ σ with epoch := σ.epoch + 1 }, x.goto .unlock)
  | .unlock, .tau => some ({ σ with lock := none, log := σ.log ++ [x.ops] }, x.goto .out)
  | .out, .exit => if σ.stage q = .ready then some (σ, x.goto (.exitStore 0)) else none
  | .exitStore i, .tau =>
      if i < n then some (σ.toShared q i, x.goto (.exitStore (i + 1)))
      else some (σ, x.goto .exitSub)
  | .exitSub, .tau => some ({ σ with readyCount := σ.readyCount - 1 }, x.goto .exitLoad)
  | .exitLoad, .tau =>
      if σ.readyCount ≤ 0 then some ({ σ.setStage q .gone with unlinked := true }, x.goto .out)
      else some (σ, x.goto .out)
  | _, _ => none

def step (n : ℕ) (proc : T → Q) : Threads (Shared Q T) Tx T → T × Call →
    Option (Threads (Shared Q T) Tx T) :=
  Threads.step (next n proc)

def init (T : Type) (image : ℕ → Byte) (loc : Q → ℕ → Byte) : Threads (Shared Q T) Tx T :=
  ⟨{ image, loc }, fun _ => {}⟩

/-- The processes have initialised their symbols to `m₀` when they publish them, before the first
transaction; what is published without the lock later is what the file has already. The file is
not removed while processes start, none of which starts so late that it overwrites the file, and
the symbols are stored to only by transactions once there are any. -/
def Agreed (n : ℕ) (proc : T → Q) (m₀ : ℕ → Byte) (s : Threads (Shared Q T) Tx T)
    (l : T × Call) (_ : Threads (Shared Q T) Tx T) : Prop :=
  match (s.tx l.1).pc, l.2 with
  | .publish i, .tau | .exitStore i, .tau => i < n → s.shared.loc (proc l.1) i =
      if s.shared.started then s.shared.image i else m₀ i
  | .initStore _, .tau => s.shared.passed = false
  | .out, .init _ => s.shared.unlinked = false
  | .out, .poke _ _ => s.shared.started = false
  | _, _ => True

instance (n : ℕ) (proc : T → Q) (m₀ : ℕ → Byte) (s : Threads (Shared Q T) Tx T) (l : T × Call)
    (s' : Threads (Shared Q T) Tx T) : Decidable (Agreed n proc m₀ s l s') := by
  unfold Agreed
  split <;> infer_instance

end DistributedSGL
