import ClangTM.Rust.LeftRight.Separation
import ClangTM.Serial.CommitLog

/-!
# Transactions on the left-right backend

The backend does not keep track of transactions: any call can be made at any time, and a
read leaves no trace. Here every thread calls `tm_begin`, then reads and writes, and then
`tm_commit` or `tm_abort`, and what it reads and writes is written down, with the order in
which the transactions with writes commit. The runs of this system are runs of the backend
(`run_erase`).
-/

namespace Rust.LeftRight

open Serial Transition

structure Session where
  tx : Tx := {}
  inTx : Bool := false
  ops : Trace Access Word := []

/-- The globals, the thread that holds the write lock, and the committed transactions. -/
structure Book (T : Type) where
  globals : Shared
  holder : Option T := none
  writers : ℕ := 0
  log : ℕ → Option (Trace Access Word) := fun _ => none
  ro : List (ℕ × Trace Access Word) := []

/-- The value of the latest entry for an address; the list is newest first. -/
def lastVal (rws : List WriteEntry) (a : Addr) : Option Word :=
  (rws.find? fun e => e.addr = a).map WriteEntry.val

/-- The operation that a step of a thread completes, with the value that the typed call has
been given or returns. -/
def completed (σ : Shared) (x : Tx) (c : Call) : Option (Op Access Word) :=
  match x.pc with
  | .idle =>
      match c with
      | .read a w => (lastVal x.writeSet.reverse a).map fun v => .read ⟨a, w⟩ (w.low v)
      | _ => none
  | .writeMap a v w _ _ => some (.write ⟨a, w⟩ (w.low v))
  | .readSub a w _ val => val.map fun v => .read ⟨a, w⟩ (w.low v)
  | .readMem a w => some (.read ⟨a, w⟩ (w.low (loadBytes σ.mem a w.bytes)))
  | _ => none

namespace Session

variable (x : Session)

/-- A transaction begins outside of one, and the other calls are made inside. -/
def allows (c : Call) : Bool :=
  match c with
  | .tau => true
  | .begin => !x.inTx
  | _ => x.inTx

def after (σ : Shared) (c : Call) (tx : Tx) : Session :=
  match c with
  | .begin => { tx := tx, inTx := true }
  | .commit | .abort => { x with tx := tx, inTx := false }
  | _ => { x with tx := tx, ops := (completed σ x.tx c).toList ++ x.ops }

end Session

namespace Book

variable {T : Type} (g : Book T)

/-- The globals after a step of `t`, and who holds the lock. -/
def move (t : T) (σ : Shared) : Book T :=
  { g with
    globals := σ
    holder := if σ.lock = g.globals.lock then g.holder else if σ.lock then some t else none }

def commit (x : Session) : Book T :=
  if x.tx.writeSet = [] then { g with ro := (g.writers, x.ops) :: g.ro }
  else { g with writers := g.writers + 1, log := enter g.log (g.writers + 1) x.ops }

def after (t : T) (x : Session) (c : Call) (σ : Shared) : Book T :=
  if c = .commit then (g.move t σ).commit x else g.move t σ

end Book

def sessionNext {T : Type} (t : T) (g : Book T) (x : Session) (c : Call) :
    Option (Book T × Session) :=
  if x.allows c then
    (next g.globals x.tx c).map fun p => (g.after t x c p.1, x.after g.globals c p.2)
  else none

def sessionStep {T : Type} [DecidableEq T] :
    Threads (Book T) Session T → T × Call → Option (Threads (Book T) Session T) :=
  Threads.step sessionNext

def sessionInit (T : Type) (m₀ : Addr → BitVec 8) : Threads (Book T) Session T where
  shared := { globals := { mem := m₀ } }
  tx _ := {}

section Erase

variable {T : Type}

def erase (s : Threads (Book T) Session T) : Threads Shared Tx T where
  shared := s.shared.globals
  tx t := (s.tx t).tx

theorem after_globals (g : Book T) (t : T) (x : Session) (c : Call) (σ : Shared) :
    (g.after t x c σ).globals = σ := by
  unfold Book.after Book.commit
  split
  · split <;> rfl
  · rfl

theorem after_tx (x : Session) (σ : Shared) (c : Call) (tx : Tx) : (x.after σ c tx).tx = tx := by
  cases c <;> rfl

variable [DecidableEq T] {s s' : Threads (Book T) Session T} {l : T × Call}

theorem sessionStep_cases (h : sessionStep s l = some s') :
    (s.tx l.1).allows l.2 = true ∧ ∃ σ tx, next s.shared.globals (s.tx l.1).tx l.2 = some (σ, tx) ∧
      s' = s.put l.1 (s.shared.after l.1 (s.tx l.1) l.2 σ)
        ((s.tx l.1).after s.shared.globals l.2 tx) := by
  obtain ⟨g, x, hnext, rfl⟩ := Threads.step_eq_some h
  unfold sessionNext at hnext
  split at hnext
  · next hallows =>
      obtain ⟨⟨σ, tx⟩, hp, heq⟩ := Option.map_eq_some_iff.1 hnext
      obtain ⟨rfl, rfl⟩ := Prod.mk.inj heq
      exact ⟨hallows, σ, tx, hp, rfl⟩
  · cases hnext

theorem erase_step (h : sessionStep s l = some s') : step (erase s) l = some (erase s') := by
  obtain ⟨-, σ, tx, hnext, rfl⟩ := sessionStep_cases h
  show (next s.shared.globals (s.tx l.1).tx l.2).map _ = _
  rw [hnext, Option.map_some]
  refine congrArg some ?_
  unfold erase Threads.put
  rw [Threads.mk.injEq]
  refine ⟨(after_globals _ _ _ _ _).symm, funext fun u => ?_⟩
  by_cases hu : u = l.1
  · subst hu
    simp [after_tx]
  · simp [Function.update_of_ne hu]

theorem run_erase {ok : Threads (Book T) Session T → T × Call → Threads (Book T) Session T → Prop}
    {m₀ : Addr → BitVec 8} (h : Run sessionStep ok (sessionInit T m₀) s) :
    Run step anyStep (init T m₀) (erase s) :=
  h.induction_on (P := fun s => Run step anyStep (init T m₀) (erase s)) .refl
    fun _ l _ _ ih hs _ => .tail l ih (erase_step hs) trivial

end Erase

end Rust.LeftRight
