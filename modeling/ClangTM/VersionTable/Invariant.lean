import ClangTM.VersionTable.Basic

/-!
# The invariant of the version-table backends

A transaction notes a version with each read: that of the slot, or, in `leftright`, the time of
its begin. The comparisons of the validation bound the versions of the slots by the versions
noted, so that under the commit lock every read that a comparison is about is in memory. In
`leftright` only words that are written are compared, and the times of begins are below the
version of the commit that is under way as long as no transaction begins during its write-back.
-/

namespace VersionTable

open Serial Transition CommitLock
open Rust (Addr)

def Variant.limit : Variant → ℕ
  | .romulusCpp => 2 ^ 63
  | _ => 2 ^ 64

/-- What the reads of a transaction are good for when it commits. -/
def Certified (d : Variant) : (Addr → Word) → Trace Addr Word → Prop :=
  if d = .leftright then LegalOwn else Legal

def Pc.holding : Pc → Bool
  | .validate .. | .giveUp | .setLocks .. | .tick _ | .writeBack .. | .stamp .. | .release => true
  | _ => false

/-- What a comparison that succeeds bounds the version of the slot by. -/
def Tx.bound (x : Tx) : Check → ℕ
  | .write _ => x.timestamp.toNat
  | .read _ ver => ver.toNat

/-- A comparison about the read is still to be made. -/
def Tx.Due (x : Tx) (rest : List Check) (r : Seen Addr (Word × ℕ)) : Prop :=
  ∃ c ∈ rest, c.addr = r.addr ∧ x.bound c ≤ r.ver

def Relevant (d : Variant) (keys : List Addr) (r : Seen Addr (Word × ℕ)) : Prop :=
  d = .leftright → r.addr ∈ keys

section

variable {T : Type} (d : Variant) (m₀ : Addr → Word) (σ : Shared T) (x : Tx)

def core : Core Addr (Word × ℕ) Slot T where
  mem a := (σ.mem a, σ.count a)
  ver ℓ := (readVersion d (σ.table ℓ)).toNat
  cap ℓ :=
    if d = .leftright then if σ.dirty = [] then σ.gClock.toNat else σ.gClock.toNat - 1
    else (readVersion d (σ.table ℓ)).toNat
  dirty := σ.dirty
  holder := σ.holder
  commits := σ.log.length

def Shared.Idle : Prop := σ.pending = [] ∧ σ.dirty = []

/-- The commit under way has the version `ts`, which the dirty slots do not have yet. -/
structure Stamping (ts : Word) : Prop where
  clock : ts = σ.gClock
  above : ∀ ℓ ∈ σ.dirty, (core d σ).cap ℓ < ts.toNat

/-- The version is not smaller than those noted for the address before. -/
def Tx.Newest (a : Addr) (ver : Word) : Prop := ∀ r ∈ x.readSet, r.1 = a → r.2.toNat ≤ ver.toNat

structure Valid (writeSet : List (Addr × Word)) (reads : List (Seen Addr (Word × ℕ)))
    (keys : List Addr) : Prop where
  order : keys.Perm (writeSet.map Prod.fst)
  idle : σ.Idle
  reads : ∀ r ∈ reads, Relevant d keys r → (core d σ).mem r.addr = r.val

def Here : Prop :=
  match x.pc with
  | .readBefore a => x.writeSet.lookup a = none ∧ d ≠ .leftright
  | .readValue a entry =>
      x.writeSet.lookup a = none ∧ (d ≠ .leftright → x.Newest a (readVersion d entry) ∧
        (readVersion d entry).toNat ≤ (core d σ).cap (versionIndex a))
  | .readAfter a entry val age =>
      x.writeSet.lookup a = none ∧ d ≠ .leftright ∧ x.Newest a (readVersion d entry) ∧
        Fresh versionIndex (core d σ) ⟨a, (readVersion d entry).toNat, (val, age)⟩
  | .lock keys | .lockSwap keys => keys.Perm (x.writeSet.map Prod.fst)
  | .validate rest keys =>
      keys.Perm (x.writeSet.map Prod.fst) ∧ σ.Idle ∧
        ∀ r ∈ x.reads, Relevant d keys r → x.Due rest r ∨ (core d σ).mem r.addr = r.val
  | .setLocks _ keys => d = .romulusCpp ∧ Valid d σ x.writeSet x.reads keys
  | .tick keys => Valid d σ x.writeSet x.reads keys
  | .writeBack rest keys ts =>
      σ.pending = rest ∧ (∀ ℓ ∈ σ.dirty, ℓ ∈ keys.map versionIndex) ∧ Stamping d σ ts
  | .stamp rest ts =>
      σ.pending = [] ∧ (∀ ℓ ∈ σ.dirty, ℓ ∈ rest.map versionIndex) ∧ Stamping d σ ts
  | .giveUp | .release => σ.Idle
  | _ => True

structure Knows : Prop where
  buffered : Buffered x.ops x.writeSet (x.reads.map fun r => (r.addr, r.val.1))
  replayed : Replayed x.ops x.writeSet x.writeBacks
  fresh : ∀ r ∈ x.reads, Fresh versionIndex (core d σ) r
  listed : d ≠ .leftright → ∀ r ∈ x.reads, ∃ ver, (r.addr, ver) ∈ x.readSet ∧ ver.toNat ≤ r.ver
  noted : d ≠ .leftright → ∀ r ∈ x.readSet, r.2.toNat ≤ (core d σ).cap (versionIndex r.1)
  stamped : d = .leftright → ∀ r ∈ x.reads, r.ver = x.timestamp.toNat
  start : d = .leftright → ∀ ℓ, x.timestamp.toNat ≤ (core d σ).cap ℓ
  begun : x.begun ≤ σ.log.length
  here : Here d σ x

structure Shape : Prop where
  runs : RunsWith (Certified d) m₀ (σ.log.map Commit.ops) (writeAll σ.mem σ.pending)
  own : ∀ e ∈ σ.log, ∀ r ∈ e.reads, lastWrite e.ops r.addr ≠ none → e.before r.addr = r.val
  covered : ∀ w ∈ σ.pending, versionIndex w.1 ∈ σ.dirty
  free : σ.commitLock = 0 ↔ σ.holder = none
  idle : σ.holder = none → σ.Idle
  ver_le : ∀ ℓ, (readVersion d (σ.table ℓ)).toNat ≤ σ.gClock.toNat
  room : σ.gClock.toNat < d.limit
  ro : d ≠ .leftright → ∀ r ∈ σ.ro, r.settled = true → Coexisted m₀ (σ.log.map Commit.ops) r

end

section Stable

variable {T : Type} {d : Variant} {m₀ : Addr → Word} {σ σ' : Shared T} {x : Tx}

theorem Knows.stable (h : Knows d σ x) (he : Evolves versionIndex (core d σ) (core d σ'))
    (hpc : x.pc.holding = false) : Knows d σ' x := by
  refine ⟨h.buffered, h.replayed, fun r hr => (h.fresh r hr).evolves he, h.listed,
    fun hd r hr => (h.noted hd r hr).trans (he.cap _), h.stamped, fun hd ℓ =>
      (h.start hd ℓ).trans (he.cap ℓ), h.begun.trans he.commits, ?_⟩
  have hhere := h.here
  unfold Here at hhere ⊢
  cases hx : x.pc with
  | readValue a entry =>
      rw [hx] at hhere
      exact ⟨hhere.1, fun hd => ⟨(hhere.2 hd).1, (hhere.2 hd).2.trans (he.cap _)⟩⟩
  | readAfter a entry val age =>
      rw [hx] at hhere
      exact ⟨hhere.1, hhere.2.1, hhere.2.2.1, hhere.2.2.2.evolves he⟩
  | out | beginClock | body | readBefore a | lock keys | lockSwap keys =>
      rw [hx] at hhere
      exact hhere
  | _ =>
      rw [hx] at hpc
      cases hpc

theorem Knows.congr (h : Knows d σ x) (hcore : core d σ' = core d σ)
    (hpending : σ'.pending = σ.pending) (hclock : σ'.gClock = σ.gClock) : Knows d σ' x := by
  have hdirty : σ'.dirty = σ.dirty := congrArg Core.dirty hcore
  have hlog : σ'.log.length = σ.log.length := congrArg Core.commits hcore
  have hstamping : ∀ ts, Stamping d σ ts → Stamping d σ' ts := fun ts hs =>
    ⟨by rw [hclock]; exact hs.clock, by rw [hcore, hdirty]; exact hs.above⟩
  have hvalid : ∀ keys, Valid d σ x.writeSet x.reads keys →
      Valid d σ' x.writeSet x.reads keys := fun keys hv =>
    ⟨hv.order, by rw [Shared.Idle, hpending, hdirty]; exact hv.idle, by rw [hcore]; exact hv.reads⟩
  refine ⟨h.buffered, h.replayed, by rw [hcore]; exact h.fresh, h.listed,
    by rw [hcore]; exact h.noted, h.stamped, by rw [hcore]; exact h.start,
    by rw [hlog]; exact h.begun, ?_⟩
  have hhere := h.here
  unfold Here Shared.Idle at hhere ⊢
  rw [hcore, hpending, hdirty]
  cases hx : x.pc with
  | writeBack rest keys ts | stamp rest ts =>
      rw [hx] at hhere
      exact ⟨hhere.1, hhere.2.1, hstamping ts hhere.2.2⟩
  | setLocks rest keys =>
      rw [hx] at hhere
      exact ⟨hhere.1, hvalid keys hhere.2⟩
  | tick keys =>
      rw [hx] at hhere
      exact hvalid keys hhere
  | _ =>
      rw [hx] at hhere
      exact hhere

def system (T : Type) (d : Variant) (m₀ : Addr → Word) :
    System Addr (Word × ℕ) Slot T (Shared T) Tx where
  slot := versionIndex
  core := core d
  holding x := x.pc.holding
  Shape := Shape d m₀
  Knows := Knows d
  stable := Knows.stable

theorem Knows.blank (hops : x.ops = []) (hreads : x.reads = []) (hwrites : x.writeSet = [])
    (hbacks : x.writeBacks = []) (hset : x.readSet = [])
    (hstart : d = .leftright → ∀ ℓ, x.timestamp.toNat ≤ (core d σ).cap ℓ)
    (hbegun : x.begun ≤ σ.log.length) (hhere : Here d σ x) : Knows d σ x where
  buffered := by
    rw [hops, hreads, hwrites]
    exact .nil
  replayed := by
    rw [hops, hwrites, hbacks]
    exact .nil
  fresh r hr := by rw [hreads] at hr; cases hr
  listed _ r hr := by rw [hreads] at hr; cases hr
  noted _ r hr := by rw [hset] at hr; cases hr
  stamped _ r hr := by rw [hreads] at hr; cases hr
  start := hstart
  begun := hbegun
  here := hhere

theorem Knows.finish (d : Variant) (σ : Shared T) (result : Option Bool) :
    Knows d σ (Tx.finish result) :=
  .blank rfl rfl rfl rfl rfl (fun _ _ => Nat.zero_le _) (Nat.zero_le _) trivial

theorem Knows.goto (h : Knows d σ x) {pc : Pc} (hhere : Here d σ { x with pc := pc }) :
    Knows d σ { x with pc := pc } :=
  ⟨h.buffered, h.replayed, h.fresh, h.listed, h.noted, h.stamped, h.start, h.begun, hhere⟩

theorem Knows.at (h : Knows d σ x) {pc : Pc} (hpc : x.pc = pc) : Here d σ { x with pc := pc } := by
  subst hpc
  exact h.here

end Stable

end VersionTable
