import ClangTM.Htm.Basic
import ClangTM.Memory
import ClangTM.Serial.Buffered
import ClangTM.Transition.Threads

/-!
# TSXSGL

The backend `tsx_sgl`: a transaction is tried as a hardware transaction that begins with a load
of `sgl_owner`, and falls back to `global_tx_lock`. Accesses are sequentially consistent, so the
fence after the store to `sgl_owner` is not a step. A hardware transaction can abort at any time
with any status; so the injected abort of the test hook is one of those. An abort takes effect at
once; what the thread does next is to go on after `_xbegin`, with what the transaction has
written, `in_tsx` included, undone.

Cells are words that do not overlap. The statistics and the bookkeeping of allocations are left
out. No step reads `log`, the transactions in the order in which they have taken effect, and
`ops` of a thread.
-/

namespace TsxSgl

open Serial Transition Htm

/-- What transactions access: `sgl_owner` and the cells. -/
inductive Loc (A : Type)
  | sglOwner
  | cell (a : A)
deriving DecidableEq

inductive Pc
  | out
  /-- `real_tm_begin`: `_xbegin`. -/
  | xbegin
  /-- `real_tm_begin`: the load of `sgl_owner` inside the hardware transaction. -/
  | subscribe
  /-- `real_tm_begin`: the loop that waits for `sgl_owner`. -/
  | wait
  /-- `real_tm_begin`: `global_tx_lock.lock`. -/
  | lock
  /-- `real_tm_begin`: the store of 1 to `sgl_owner`. -/
  | raise
  | body
  /-- `real_tm_end`: the load of `sgl_owner`. -/
  | check
  /-- `real_tm_end`: `_xend`. -/
  | xend
  /-- `real_tm_end`: the store of 0 to `sgl_owner`. -/
  | lower
  /-- `real_tm_end`: `global_tx_lock.unlock`. -/
  | unlock
deriving DecidableEq

/-- What a hardware transaction can change of the variables of its thread. -/
structure Vars where
  inTsx : Bool := false
  tsxStartOwner : Word := 0

/-- A thread. `saved` is there between `_xbegin` and the end of the hardware transaction, and is
what an abort restores. -/
structure Tx (A : Type) where
  pc : Pc := .out
  attempts : ℕ := 0
  vars : Vars := {}
  saved : Option Vars := none
  ops : Trace (Loc A) Word := []

structure Shared (A T : Type) where
  hw : Machine (Loc A) Word T
  globalTxLock : Option T := none
  log : List (Trace (Loc A) Word) := []

/-- What a thread does: a call, the next access of the function it is in, or the return to
`_xbegin` with a status after an abort. -/
inductive Call (A : Type)
  | begin
  | read (a : A)
  | write (a : A) (v : Word)
  | commit
  | tau
  | aborted (status : BitVec 32)

def explicit (status : BitVec 32) : Bool := status.getLsbD 0

def retry (status : BitVec 32) : Bool := status.getLsbD 1

def lockBusy (status : BitVec 32) : Bool := (status >>> 24) &&& 0xFF = 0xFF

section Step

variable {A T : Type}

namespace Tx

variable (x : Tx A)

/-- The loop of `real_tm_begin` goes on, or ends after five attempts. -/
def tryAgain : Tx A :=
  { x with pc := if x.attempts + 1 < 5 then .xbegin else .lock, attempts := x.attempts + 1 }

/-- `real_tm_begin` after `_xbegin` has returned the status of an abort. -/
def resume (vars : Vars) (status : BitVec 32) : Tx A :=
  let x := { x with vars := vars, saved := none }
  if explicit status && lockBusy status then { x with pc := .wait }
  else if !retry status then { x with pc := .lock }
  else x.tryAgain

/-- `real_tm_end` up to its first access. -/
def tmEnd : Tx A := { x with pc := if x.vars.inTsx then .check else .lower }

def note (o : Op (Loc A) Word) : Tx A := { x with ops := o :: x.ops }

end Tx

variable [DecidableEq A] [DecidableEq T] (t : T) (σ : Shared A T) (x : Tx A)

/-- A step inside the hardware transaction `h`. -/
def hwNext (h : Htx (Loc A) Word) (c : Call A) : Option (Shared A T × Tx A) :=
  match x.pc, c with
  | .subscribe, .tau =>
      let v := σ.hw.value .sglOwner h
      if v ≠ 0 then some ({ σ with hw := σ.hw.xabort t }, x)
      else some ({ σ with hw := σ.hw.xload t .sglOwner h },
        { x with pc := .body, vars := ⟨true, v⟩ })
  | .body, .read a =>
      some ({ σ with hw := σ.hw.xload t (.cell a) h }, x.note
          (.read (.cell a) (σ.hw.value (.cell a) h)))
  | .body, .write a v =>
      some ({ σ with hw := σ.hw.xstore t (.cell a) v h }, x.note (.write (.cell a) v))
  | .body, .commit => some (σ, x.tmEnd)
  | .check, .tau =>
      if σ.hw.value .sglOwner h ≠ x.vars.tsxStartOwner then some ({ σ with hw := σ.hw.xabort t }, x)
      else some ({ σ with hw := σ.hw.xload t .sglOwner h }, { x with pc := .xend })
  | .xend, .tau =>
      some ({ σ with hw := σ.hw.xend t h, log := σ.log ++ [x.ops] }, { vars := x.vars })
  | _, _ => none

/-- A step outside hardware transactions; `rtm` is whether the processor has them. -/
def swNext (rtm : Bool) (c : Call A) : Option (Shared A T × Tx A) :=
  match x.pc, c with
  | .out, .begin => some (σ, { x with pc := if rtm then .xbegin else .lock, attempts := 0 })
  | .xbegin, .tau =>
      some ({ σ with hw := σ.hw.xbegin t },
        { x with pc := .subscribe, saved := some x.vars, ops := [] })
  | .wait, .tau =>
      some ({ σ with hw := σ.hw.load t .sglOwner },
        if σ.hw.mem .sglOwner ≠ 0 then x else x.tryAgain)
  | .lock, .tau =>
      if σ.globalTxLock = none then some ({ σ with globalTxLock := some t },
          { x with pc := .raise })
      else some (σ, x)
  | .raise, .tau =>
      some ({ σ with hw := σ.hw.store t .sglOwner 1 },
        { x with pc := .body, vars := { x.vars with inTsx := false }, ops := [] })
  | .body, .read a =>
      some ({ σ with hw := σ.hw.load t (.cell a) }, x.note (.read (.cell a) (σ.hw.mem (.cell a))))
  | .body, .write a v =>
      some ({ σ with hw := σ.hw.store t (.cell a) v }, x.note (.write (.cell a) v))
  | .body, .commit => some (σ, x.tmEnd)
  | .lower, .tau =>
      some ({ σ with hw := σ.hw.store t .sglOwner 0, log := σ.log ++ [x.ops] },
        { x with pc := .unlock })
  | .unlock, .tau => some ({ σ with globalTxLock := none }, { vars := x.vars })
  | _, _ => none

/-- One step of a thread. Inside a hardware transaction that has been aborted there is only the
return to `_xbegin`. -/
def next (rtm : Bool) (t : T) (σ : Shared A T) (x : Tx A) (c : Call A) :
    Option (Shared A T × Tx A) :=
  match x.saved, c with
  | some vars, .aborted status => some ({ σ with hw := σ.hw.xabort t }, x.resume vars status)
  | some _, c => (σ.hw.htm t).bind fun h => hwNext t σ x h c
  | none, c => swNext t σ x rtm c

end Step

def step {A T : Type} [DecidableEq A] [DecidableEq T] (rtm : Bool) :
    Threads (Shared A T) (Tx A) T → T × Call A → Option (Threads (Shared A T) (Tx A) T) :=
  Threads.step (next rtm)

def start {A : Type} (m₀ : A → Word) : Loc A → Word
  | .sglOwner => 0
  | .cell a => m₀ a

def init {A : Type} (T : Type) (m₀ : A → Word) : Threads (Shared A T) (Tx A) T where
  shared := { hw := ⟨start m₀, fun _ => none⟩ }
  tx _ := {}

end TsxSgl
