import Mathlib.Data.Set.Insert
import ClangTM.Simulator.Engine.Basic

/-!
# A backend whose transactions are atomic

`Atomic` is a transactional memory as its user sees it: a committed memory, and for each thread
its open transaction, with what it has read and written. A transaction reads from a memory that
was the committed one since it began, its own writes apart, and if it commits, all its reads
come from one such memory, which is the present one if it writes. An access outside a
transaction goes to the committed memory.

`validating` is a backend that keeps such a memory: it aborts a transaction as soon as one of its
reads has become stale.
-/

namespace Simulator

abbrev Mem := Word → BitVec 8

def byteAt (v : Word) (i : ℕ) : BitVec 8 := (v >>> (8 * i)).setWidth 8

def store (m : Mem) (a : Word) (width : ℕ) (v : Word) : Mem := fun b =>
  if (b - a).toNat < width then byteAt v (b - a).toNat else m b

def load (m : Mem) (a : Word) : ℕ → Word
  | 0 => 0
  | width + 1 => (m a).setWidth 64 ||| (load m (a + 1) width <<< 8)

structure WriteOp where
  addr : Word
  width : ℕ
  val : Word
deriving DecidableEq

def applyWrites (m : Mem) (ws : List WriteOp) : Mem :=
  ws.foldl (fun m w => store m w.addr w.width w.val) m

/-- A read, with what its transaction had written before. -/
structure ReadOp where
  addr : Word
  width : ℕ
  val : Word
  pending : List WriteOp

def ReadOp.Fits (m : Mem) (r : ReadOp) : Prop :=
  load (applyWrites m r.pending) r.addr r.width = r.val

instance (m : Mem) (r : ReadOp) : Decidable (r.Fits m) := inferInstanceAs (Decidable (_ = _))

/-- An open transaction, and the memories that have been committed since it began. -/
structure OpenTx where
  writes : List WriteOp := []
  reads : List ReadOp := []
  since : Set Mem

/-- The committed memory and the open transactions. -/
structure Atomic where
  mem : Mem
  tx : ℕ → Option OpenTx

namespace Atomic

variable (s : Atomic) (t : ℕ)

def openTx : Atomic := { s with tx := Function.update s.tx t (some { since := {s.mem} }) }

def closeTx : Atomic := { s with tx := Function.update s.tx t none }

def setTx (x : OpenTx) : Atomic := { s with tx := Function.update s.tx t (some x) }

def publish (m : Mem) : Atomic where
  mem := m
  tx u := (s.tx u).map fun x => { x with since := insert m x.since }

end Atomic

/-- The state of the backend below, as an atomic memory. -/
def validatingAbs (b : BackendState (Option OpenTx) Mem) : Atomic where
  mem := b.shared
  tx u := (b.threads u).map fun x => { x with since := insert b.shared x.since }

def Atomic.toState (s : Atomic) : BackendState (Option OpenTx) Mem := ⟨s.tx, s.mem⟩

/-- All reads of a transaction are reads of the memory. -/
def OpenTx.valid (x : OpenTx) (m : Mem) : Bool := x.reads.all fun r => r.Fits m

/-- The backend that validates all reads at every read and at the commit. -/
def validating : Backend (Option OpenTx) Mem where
  isTsxSim := false
  initThread _ b := b
  begin t b := ((validatingAbs b).openTx t).toState
  tryBegin t b := (true, ((validatingAbs b).openTx t).toState)
  forceSgl t b := ((validatingAbs b).openTx t).toState
  abort t b := ((validatingAbs b).closeTx t).toState
  commit t b :=
    match (validatingAbs b).tx t with
    | none => (true, b)
    | some x =>
        if x.valid b.shared then
          (true, (((validatingAbs b).closeTx t).publish (applyWrites b.shared x.writes)).toState)
        else (false, ((validatingAbs b).closeTx t).toState)
  read t a w b :=
    match (validatingAbs b).tx t with
    | none => (some (load b.shared a w), b)
    | some x =>
        if x.valid b.shared then
          let v := load (applyWrites b.shared x.writes) a w
          (some v, ((validatingAbs b).setTx t
            { x with reads := x.reads ++ [⟨a, w, v, x.writes⟩] }).toState)
        else (none, ((validatingAbs b).closeTx t).toState)
  write t a w v b :=
    match (validatingAbs b).tx t with
    | none => (true, ((validatingAbs b).publish (store b.shared a w v)).toState)
    | some x =>
        (true, ((validatingAbs b).setTx t { x with writes := x.writes ++ [⟨a, w, v⟩] }).toState)

end Simulator
