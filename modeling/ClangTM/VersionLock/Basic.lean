import ClangTM.Serial.CommitLog

/-!
# Transactions over versioned locks

The protocol shared by the time-based software transactional memories, in its
own terms. Words are guarded by locks through an arbitrary map `lock : A → L`,
so that different words may share one lock. A lock has an owner, if it is held,
and the version of the transaction that released it last. A transaction records
the words it reads with the version of their lock, takes a commit version from
the clock (`tick`) when it holds the locks of everything it writes, and commits
when its reads are known to be valid up to that version.

The memory does not appear here: `State.mem` is the committed memory, computed
from the log, and an implementation relates its own memory to it. Nor does the
order in which an implementation looks at its read set: what validation has to
establish is `Safe`, a condition on one recorded read and one clock value that
no later move of another transaction can invalidate (`Safe.step`).
-/

namespace VersionLock

open Serial

/-- A recorded read: the word, the version of its lock, the value returned. -/
structure Entry (A V : Type*) where
  addr : A
  ver : ℕ
  val : V

/-- One transaction. The commit version is handed out by `tick`; `done` says
that the transaction has passed its commit point. -/
structure Tx (A V : Type*) where
  reads : List (Entry A V) := []
  trace : Trace A V := []
  cv : Option ℕ := none
  done : Bool := false

/-- The state of the protocol: the clock, the locks, the transactions, and the
history of the transactions committed so far. -/
@[ext] structure State (A V L T : Type*) where
  clock : ℕ
  owner : L → Option T
  ver : L → ℕ
  log : ℕ → Option (Trace A V)
  ro : List (ℕ × Trace A V)
  tx : T → Tx A V

variable {A V L T : Type*}

namespace State

def mem [DecidableEq A] (m₀ : A → V) (s : State A V L T) : ℕ → A → V := memAt m₀ s.log

variable [DecidableEq T]

def setTx (s : State A V L T) (t : T) (x : Tx A V) : State A V L T :=
  { s with tx := Function.update s.tx t x }

variable (s : State A V L T) (t : T) (x : Tx A V)

@[simp, grind =] theorem setTx_clock : (s.setTx t x).clock = s.clock := rfl

@[simp, grind =] theorem setTx_owner (ℓ : L) : (s.setTx t x).owner ℓ = s.owner ℓ := rfl

@[simp, grind =] theorem setTx_ver (ℓ : L) : (s.setTx t x).ver ℓ = s.ver ℓ := rfl

@[simp, grind =] theorem setTx_log (c : ℕ) : (s.setTx t x).log c = s.log c := rfl

@[simp, grind =] theorem setTx_ro : (s.setTx t x).ro = s.ro := rfl

@[grind =] theorem setTx_tx (u : T) :
    (s.setTx t x).tx u = if u = t then x else s.tx u := by
  simp [setTx, Function.update_apply]

@[simp] theorem setTx_tx_self : (s.setTx t x).tx t = x := by
  simp [setTx_tx]

/-- Replacing a transaction by itself. -/
theorem setTx_self : s.setTx t (s.tx t) = s := by
  rw [setTx, Function.update_eq_self]

@[simp] theorem setTx_tx_of_ne {u : T} (h : u ≠ t) : (s.setTx t x).tx u = s.tx u := by
  simp [setTx_tx, h]

end State

variable [DecidableEq A] [DecidableEq L] [DecidableEq T]

/-- No transaction other than `t` with a commit version up to `e` holds `ℓ`. -/
def Quiet (s : State A V L T) (t : T) (ℓ : L) (e : ℕ) : Prop :=
  ∀ u c, u ≠ t → (s.tx u).cv = some c → c ≤ e → s.owner ℓ ≠ some u

/-- The recorded read `r` of `t` is valid up to the clock value `e`: nobody else
can still commit a write to its word with a version up to `e`, and nobody has
done so since the version that was read. -/
structure Safe (lock : A → L) (s : State A V L T) (t : T) (r : Entry A V) (e : ℕ) :
    Prop where
  quiet : Quiet s t (lock r.addr) (max r.ver e)
  unwritten : ∀ c u, r.ver < c → c ≤ e → s.log c = some u → lastWrite u r.addr = none
  version : s.ver (lock r.addr) ≤ r.ver ∨ e < s.ver (lock r.addr)

/-- The value `v` was seen at `a` while its lock had version `n`: as long as
the lock keeps that version and no committed transaction holds it, `v` is the
committed value. -/
structure Seen (lock : A → L) (m₀ : A → V) (s : State A V L T) (a : A) (n : ℕ) (v : V) :
    Prop where
  le : n ≤ s.ver (lock a)
  value : s.ver (lock a) = n →
    (∀ u, s.owner (lock a) = some u → (s.tx u).done = false) → s.mem m₀ s.clock a = v

/-- The moves of the transaction `t`. The clock can also move without handing out a
version, and the transaction that moved it can give up at once (`skip`, `overflow`). -/
inductive Step (lock : A → L) (m₀ : A → V) (s : State A V L T) (t : T) :
    State A V L T → Prop
  | write (a : A) (v : V) (hcv : (s.tx t).cv = none) :
      Step lock m₀ s t (s.setTx t { s.tx t with trace := .write a v :: (s.tx t).trace })
  | readOwn (a : A) (v : V) (hcv : (s.tx t).cv = none)
      (hw : lastWrite (s.tx t).trace a = some v) :
      Step lock m₀ s t (s.setTx t { s.tx t with trace := .read a v :: (s.tx t).trace })
  | read (a : A) (hcv : (s.tx t).cv = none)
      (hown : ∀ u, s.owner (lock a) = some u → u = t)
      (hw : lastWrite (s.tx t).trace a = none) :
      Step lock m₀ s t (s.setTx t
        { s.tx t with
          reads := ⟨a, s.ver (lock a), s.mem m₀ s.clock a⟩ :: (s.tx t).reads
          trace := .read a (s.mem m₀ s.clock a) :: (s.tx t).trace })
  | acquire (ℓ : L) (hcv : (s.tx t).cv = none) (hfree : s.owner ℓ = none) :
      Step lock m₀ s t { s with owner := Function.update s.owner ℓ (some t) }
  | tick (hcv : (s.tx t).cv = none) :
      Step lock m₀ s t
        { (s.setTx t { s.tx t with cv := some (s.clock + 1) }) with clock := s.clock + 1 }
  | skip : Step lock m₀ s t { s with clock := s.clock + 1 }
  | overflow (hd : (s.tx t).done = false) :
      Step lock m₀ s t { (s.setTx t {}) with clock := s.clock + 1 }
  | commit (c : ℕ) (hcv : (s.tx t).cv = some c) (hd : (s.tx t).done = false)
      (hsafe : ∀ r ∈ (s.tx t).reads, Safe lock s t r (c - 1))
      (hown : ∀ a v, lastWrite (s.tx t).trace a = some v → s.owner (lock a) = some t) :
      Step lock m₀ s t
        { (s.setTx t { s.tx t with done := true }) with
          log := enter s.log c (s.tx t).trace }
  | release (ℓ : L) (c : ℕ) (hcv : (s.tx t).cv = some c) (hd : (s.tx t).done = true)
      (hown : s.owner ℓ = some t) :
      Step lock m₀ s t
        { s with owner := Function.update s.owner ℓ none, ver := Function.update s.ver ℓ c }
  | unlock (ℓ : L) (hd : (s.tx t).done = false) (hown : s.owner ℓ = some t) :
      Step lock m₀ s t { s with owner := Function.update s.owner ℓ none }
  | abort (hd : (s.tx t).done = false) : Step lock m₀ s t (s.setTx t {})
  | finish (hd : (s.tx t).done = true) (hown : ∀ ℓ, s.owner ℓ ≠ some t) :
      Step lock m₀ s t (s.setTx t {})
  | commitReadOnly (e : ℕ) (hcv : (s.tx t).cv = none) (he : e ≤ s.clock)
      (hro : ∀ a, lastWrite (s.tx t).trace a = none)
      (hsafe : ∀ r ∈ (s.tx t).reads, r.ver ≤ e ∧ Safe lock s t r e) :
      Step lock m₀ s t { (s.setTx t {}) with ro := (e, (s.tx t).trace) :: s.ro }

end VersionLock
