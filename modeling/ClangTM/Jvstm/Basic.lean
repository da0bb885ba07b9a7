import ClangTM.Serial.Boxes
import ClangTM.Serial.RedoLog
import ClangTM.Transition.Threads

/-!
# JVSTM

Every word has a box with a list of bodies, newest first: a version and a value. A box is made
when its word is first touched, with a body of version 0 and the value in memory. A transaction
notes the clock when it begins and reads the first body whose version is not above it; only a
transaction with writes is validated. A commit takes the lock, increments the clock, compares the
newest versions with those it has read, prepends its bodies and stores to memory.

A step is one access to the shared state, together with the local work up to the next one; the
bodies do not change, so that the walk of `find_body` belongs to the load of the head. In a
commit, making a box and loading its head is one step, since heads change only under the lock.

No step reads `publishing`, set from the increment of the clock to the unlock, `log`, the committed
transactions with writes by commit time, and `ro`, the read-only ones with their `t_rv`.
-/

namespace Jvstm

open Serial Transition

inductive Pc (A V : Type)
  | out
  | beginClock
  | body
  | readBox (a : A)
  | readHead (a : A)
  | lock
  | tick
  | checkReads (rest : List (A × ℕ))
  | checkWrites (rest : List (A × V))
  | prepend (rest : List (A × V))
  | through (w : A × V) (rest : List (A × V))
  | unlock

structure Shared (A V T : Type) where
  gClock : ℕ := 0
  boxes : A → Option (List (ℕ × V)) := fun _ => none
  mem : A → V
  lock : Option T := none
  publishing : Bool := false
  log : ℕ → Option (Trace A V) := fun _ => none
  ro : List (ℕ × Trace A V) := []

structure Tx (A V : Type) where
  pc : Pc A V := .out
  rv : ℕ := 0
  ct : ℕ := 0
  readSet : List (A × ℕ) := []
  writeSet : List (A × V) := []
  ops : Trace A V := []

inductive Call (A V : Type)
  | tau
  | begin
  | read (a : A)
  | write (a : A) (v : V)
  | commit
  | abort

variable {A V T : Type} [DecidableEq A]

/-- The bodies of a word; a box that is not there yet is made from memory. -/
def Shared.bodies (σ : Shared A V T) (a : A) : List (ℕ × V) :=
  (σ.boxes a).getD [(0, σ.mem a)]

def Shared.touch (σ : Shared A V T) (a : A) : Shared A V T :=
  { σ with boxes := Function.update σ.boxes a (some (σ.bodies a)) }

def Shared.head (σ : Shared A V T) (a : A) : Option ℕ :=
  (σ.bodies a).head?.map Prod.fst

def Tx.read (x : Tx A V) (a : A) : Tx A V :=
  match x.writeSet.lookup a with
  | some v => { x with ops := .read a v :: x.ops }
  | none => { x with pc := .readBox a }

/-- `read_tracked` from the load of the head on; without a body it dereferences a null pointer. -/
def Tx.readHead (x : Tx A V) (a : A) (bodies : List (ℕ × V)) : Option (Tx A V) :=
  (find x.rv bodies).map fun b =>
    { x with
      pc := .body
      readSet := x.readSet ++ [(a, b.1)]
      ops := .read a b.2 :: x.ops }

def commit (σ : Shared A V T) (x : Tx A V) : Shared A V T × Tx A V :=
  match x.writeSet with
  | [] => ({ σ with ro := σ.ro ++ [(x.rv, x.ops)] }, {})
  | _ :: _ => (σ, { x with pc := .lock })

def tick (σ : Shared A V T) (x : Tx A V) : Shared A V T × Tx A V :=
  ({ σ with gClock := (σ.gClock + 1) % 2 ^ 64, publishing := true },
    { x with pc := .checkReads x.readSet, ct := (σ.gClock + 1) % 2 ^ 64 })

def prepend (σ : Shared A V T) (x : Tx A V) (w : A × V) (rest : List (A × V)) :
    Shared A V T × Tx A V :=
  ({ σ with boxes := Function.update σ.boxes w.1 (some ((x.ct, w.2) :: σ.bodies w.1)) },
    { x with pc := .through w rest })

variable [DecidableEq T]

def next (t : T) (σ : Shared A V T) (x : Tx A V) (c : Call A V) :
    Option (Shared A V T × Tx A V) :=
  match x.pc, c with
  | .out, .begin => some (σ, { x with pc := .beginClock })
  | .beginClock, .tau => some (σ, { pc := .body, rv := σ.gClock })
  | .body, .read a => some (σ, x.read a)
  | .readBox a, .tau => some (σ.touch a, { x with pc := .readHead a })
  | .readHead a, .tau => (x.readHead a (σ.bodies a)).map fun x => (σ, x)
  | .body, .write a v =>
      some (σ, { x with writeSet := putBack a v x.writeSet, ops := .write a v :: x.ops })
  | .body, .abort => some (σ, {})
  | .body, .commit => some (commit σ x)
  | .lock, .tau =>
      if σ.lock = none then some ({ σ with lock := some t }, { x with pc := .tick }) else none
  | .tick, .tau => some (tick σ x)
  | .checkReads (e :: rest), .tau =>
      some (σ, { x with pc := if σ.head e.1 = some e.2 then .checkReads rest else .unlock })
  | .checkReads [], .tau => some (σ, { x with pc := .checkWrites x.writeSet })
  | .checkWrites (w :: rest), .tau =>
      some (σ.touch w.1, { x with
        pc := if (σ.head w.1).any fun k => x.rv < k then .unlock else .checkWrites rest })
  | .checkWrites [], .tau =>
      some ({ σ with log := enter σ.log x.ct x.ops }, { x with pc := .prepend x.writeSet })
  | .prepend (w :: rest), .tau => some (prepend σ x w rest)
  | .prepend [], .tau => some (σ, { x with pc := .unlock })
  | .through w rest, .tau =>
      some ({ σ with mem := Function.update σ.mem w.1 w.2 }, { x with pc := .prepend rest })
  | .unlock, .tau => some ({ σ with lock := none, publishing := false }, {})
  | _, _ => none

def step : Threads (Shared A V T) (Tx A V) T → T × Call A V →
    Option (Threads (Shared A V T) (Tx A V) T) :=
  Threads.step next

def init (T : Type) (m₀ : A → V) : Threads (Shared A V T) (Tx A V) T :=
  ⟨{ mem := m₀ }, fun _ => {}⟩

/-- No transaction loads the clock while a commit that has incremented it is still under way, and
the clock does not wrap. -/
def Settled (s : Threads (Shared A V T) (Tx A V) T) (l : T × Call A V)
    (_ : Threads (Shared A V T) (Tx A V) T) : Prop :=
  match (s.tx l.1).pc with
  | .beginClock => s.shared.publishing = false
  | .tick => s.shared.gClock + 1 < 2 ^ 64
  | _ => True

instance (s : Threads (Shared A V T) (Tx A V) T) (l : T × Call A V)
    (s' : Threads (Shared A V T) (Tx A V) T) : Decidable (Settled s l s') := by
  unfold Settled
  split <;> infer_instance

end Jvstm
