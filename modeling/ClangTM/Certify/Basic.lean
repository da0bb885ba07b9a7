import ClangTM.VersionLock.Basic

/-!
# Transactions that certify their reads when they commit

The protocol of the transactional memories in which a read only notes the version of
its lock and the commit checks that nothing has changed. In contrast to the protocol of
`VersionLock`, versions need not be clock values: all that counts is that the version of
a lock grows whenever a committed transaction releases it. The order of the committed
transactions comes from the commit versions that `tick` hands out, and `stamp` keeps the
commit version of the transaction that released a lock last.

An implementation carries a `Book` along with its own shared state, in which the moves of
the protocol are recorded, and a `VersionLock.Tx` with every transaction. The memory does
not appear: `State.mem` is the committed memory, computed from the log.
-/

namespace Certify

open Serial VersionLock

/-- The shared part of the protocol: the clock, the locks with their owners, versions and
stamps, and the history of the committed transactions. -/
structure Book (A V L T : Type*) where
  clock : ℕ
  owner : L → Option T
  ver : L → ℕ
  stamp : L → ℕ
  log : ℕ → Option (Trace A V)
  ro : List (ℕ × Trace A V)

structure State (A V L T : Type*) extends Book A V L T where
  tx : T → Tx A V

variable {A V L T : Type*}

namespace Book

def empty (n : ℕ) : Book A V L T where
  clock := n
  owner _ := none
  ver _ := 0
  stamp _ := 0
  log _ := none
  ro := []

variable (b : Book A V L T)

abbrev tick : Book A V L T := { b with clock := b.clock + 1 }

abbrev commit (c : ℕ) (w : Trace A V) : Book A V L T := { b with log := enter b.log c w }

abbrev commitReadOnly (e : ℕ) (w : Trace A V) : Book A V L T := { b with ro := (e, w) :: b.ro }

variable [DecidableEq L]

abbrev acquire (ℓ : L) (t : T) : Book A V L T :=
  { b with owner := Function.update b.owner ℓ (some t) }

abbrev unlock (ℓ : L) (n : ℕ) : Book A V L T :=
  { b with owner := Function.update b.owner ℓ none, ver := Function.update b.ver ℓ n }

/-- The lock `ℓ` is given back with the version `n` by the transaction that committed with
`c`. -/
abbrev release (ℓ : L) (n c : ℕ) : Book A V L T :=
  { b with
    owner := Function.update b.owner ℓ none
    ver := Function.update b.ver ℓ n
    stamp := Function.update b.stamp ℓ c }

end Book

namespace State

def mem [DecidableEq A] (m₀ : A → V) (s : State A V L T) : ℕ → A → V := memAt m₀ s.log

variable [DecidableEq T]

def put (s : State A V L T) (t : T) (b : Book A V L T) (x : Tx A V) : State A V L T :=
  ⟨b, Function.update s.tx t x⟩

variable (s : State A V L T) (t : T) (b : Book A V L T) (x : Tx A V)

@[simp] theorem put_toBook : (s.put t b x).toBook = b := rfl

@[grind =] theorem put_clock : (s.put t b x).clock = b.clock := rfl

@[grind =] theorem put_owner (ℓ : L) : (s.put t b x).owner ℓ = b.owner ℓ := rfl

@[grind =] theorem put_ver (ℓ : L) : (s.put t b x).ver ℓ = b.ver ℓ := rfl

@[grind =] theorem put_stamp (ℓ : L) : (s.put t b x).stamp ℓ = b.stamp ℓ := rfl

@[grind =] theorem put_log (c : ℕ) : (s.put t b x).log c = b.log c := rfl

@[grind =] theorem put_tx (u : T) : (s.put t b x).tx u = if u = t then x else s.tx u := by
  simp [put, Function.update_apply]

@[simp] theorem put_tx_self : (s.put t b x).tx t = x := by
  simp [put_tx]

theorem put_tx_of_ne {u : T} (h : u ≠ t) : (s.put t b x).tx u = s.tx u := by
  simp [put_tx, h]

theorem put_self : s.put t s.toBook (s.tx t) = s := by
  rw [put, Function.update_eq_self]

@[simp] theorem put_put (b' : Book A V L T) (x' : Tx A V) :
    (s.put t b x).put t b' x' = s.put t b' x' := by
  simp [put]

end State

/-- No transaction other than `t` with a commit version up to `e` holds `ℓ`. -/
def Quiet (s : State A V L T) (t : T) (ℓ : L) (e : ℕ) : Prop :=
  ∀ u c, u ≠ t → (s.tx u).cv = some c → c ≤ e → s.owner ℓ ≠ some u

def Settled (s : State A V L T) (ℓ : L) : Prop :=
  ∀ u, s.owner ℓ = some u → (s.tx u).done = false

variable [DecidableEq A]

/-- The value `v` was seen at `a` while its lock had version `n`: as long as the lock
keeps that version and no committed transaction holds it, `v` is the committed value. -/
structure Seen (lock : A → L) (m₀ : A → V) (s : State A V L T) (a : A) (n : ℕ) (v : V) :
    Prop where
  le : n ≤ s.ver (lock a)
  value : s.ver (lock a) = n → Settled s (lock a) → s.mem m₀ s.clock a = v

/-- The read `r` of `t` is part of the committed memory at `e`, and nobody else can still
commit a write to its word up to there. -/
structure Kept (lock : A → L) (m₀ : A → V) (s : State A V L T) (t : T) (r : Entry A V)
    (e : ℕ) : Prop where
  quiet : Quiet s t (lock r.addr) e
  value : s.mem m₀ e r.addr = r.val

variable [DecidableEq L] [DecidableEq T]

/-- The moves of the transaction `t`. The clock can also move without handing out a version, and
the transaction that moved it can give up at once (`skip`). -/
inductive Step (lock : A → L) (m₀ : A → V) (s : State A V L T) (t : T) :
    State A V L T → Prop
  | write (a : A) (v : V) (hcv : (s.tx t).cv = none) :
      Step lock m₀ s t
        (s.put t s.toBook { s.tx t with trace := .write a v :: (s.tx t).trace })
  | readOwn (a : A) (v : V) (hcv : (s.tx t).cv = none)
      (hw : lastWrite (s.tx t).trace a = some v) :
      Step lock m₀ s t
        (s.put t s.toBook { s.tx t with trace := .read a v :: (s.tx t).trace })
  | read (a : A) (n : ℕ) (v : V) (hcv : (s.tx t).cv = none)
      (hw : lastWrite (s.tx t).trace a = none) (hseen : Seen lock m₀ s a n v) :
      Step lock m₀ s t (s.put t s.toBook
        { s.tx t with
          reads := ⟨a, n, v⟩ :: (s.tx t).reads
          trace := .read a v :: (s.tx t).trace })
  | acquire (ℓ : L) (hcv : (s.tx t).cv = none) (hfree : s.owner ℓ = none) :
      Step lock m₀ s t (s.put t (s.acquire ℓ t) (s.tx t))
  | tick (hcv : (s.tx t).cv = none) :
      Step lock m₀ s t (s.put t s.tick { s.tx t with cv := some (s.clock + 1) })
  | skip (x : Tx A V) (hx : x = s.tx t ∨ (s.tx t).done = false ∧ x = {}) :
      Step lock m₀ s t (s.put t s.tick x)
  | commit (c : ℕ) (hcv : (s.tx t).cv = some c) (hd : (s.tx t).done = false)
      (hkept : ∀ r ∈ (s.tx t).reads, Kept lock m₀ s t r (c - 1))
      (hown : ∀ a v, lastWrite (s.tx t).trace a = some v → s.owner (lock a) = some t) :
      Step lock m₀ s t (s.put t (s.commit c (s.tx t).trace) { s.tx t with done := true })
  | release (ℓ : L) (n c : ℕ) (hcv : (s.tx t).cv = some c) (hd : (s.tx t).done = true)
      (hown : s.owner ℓ = some t) (hn : s.ver ℓ < n) :
      Step lock m₀ s t (s.put t (s.release ℓ n c) (s.tx t))
  | unlock (ℓ : L) (n : ℕ) (hd : (s.tx t).done = false) (hown : s.owner ℓ = some t)
      (hn : s.ver ℓ ≤ n) : Step lock m₀ s t (s.put t (s.unlock ℓ n) (s.tx t))
  | abort (hd : (s.tx t).done = false) : Step lock m₀ s t (s.put t s.toBook {})
  | finish (hd : (s.tx t).done = true) (hown : ∀ ℓ, s.owner ℓ ≠ some t) :
      Step lock m₀ s t (s.put t s.toBook {})
  | commitReadOnly (e : ℕ) (hcv : (s.tx t).cv = none) (he : e ≤ s.clock)
      (hro : ∀ a, lastWrite (s.tx t).trace a = none)
      (hkept : ∀ r ∈ (s.tx t).reads, Kept lock m₀ s t r e) :
      Step lock m₀ s t (s.put t (s.commitReadOnly e (s.tx t).trace) {})

end Certify
