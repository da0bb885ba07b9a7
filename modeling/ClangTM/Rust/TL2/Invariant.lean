import ClangTM.Rust.TL2.Basic
import ClangTM.Serial.Buffered

/-!
# The invariant of the Rust TL2 backend

Only the holder of `COMMIT_LOCK` changes locks and memory. What is said of the shared state
depends on how far the holder has come (`work`): the locks that are taken are the ones the
holder has noted, and memory is what the committed transactions leave, at every word but
those the holder has still to write back. A read that was noted with the version `ver`
is good as long as its lock is free and has this version (`Fresh`).
-/

namespace Rust.TL2

open Serial Transition

namespace Pc

def holding : Pc → Bool
  | .validate _ | .giveUp | .lock .. | .lockCas .. | .writeBack .. | .unlock _ | .unlockStore ..
  | .advance | .release => true
  | _ => false

/-- Whether it does and can still fail to commit. -/
def deciding : Pc → Bool
  | .validate _ | .giveUp | .lock .. | .lockCas .. => true
  | _ => false

def taken : Pc → List LockIdx
  | .lock _ _ locked | .lockCas _ _ _ locked | .writeBack _ locked => locked
  | .unlock rest => rest
  | .unlockStore _ idx rest => idx :: rest
  | _ => []

def pending : Pc → List Addr
  | .writeBack rest _ => rest.map Prod.fst
  | _ => []

end Pc

/-- If the lock of a word is free and has the version noted, memory has the value noted. -/
structure Fresh {T : Type} (σ : Shared T) (r : ReadRecord) : Prop where
  le : r.ver.toNat ≤ (version (σ.locks (lockIndex r.addr))).toNat
  value : isLocked (σ.locks (lockIndex r.addr)) = false →
    version (σ.locks (lockIndex r.addr)) = r.ver → σ.mem r.addr = r.val

structure Recorded (x : Tx) : Prop where
  sets : Buffered x.ops x.writeSet (x.reads.map fun r => (r.addr, r.val))
  listed : ∀ r ∈ x.reads, (r.addr, r.ver) ∈ x.readSet

def Current {T : Type} (σ : Shared T) (x : Tx) : Prop := ∀ r ∈ x.reads, σ.mem r.addr = r.val

/-- The locks of the write set are taken, or those of the list are still to come. -/
def Covered (x : Tx) (locked : List LockIdx) (rest : List Addr) : Prop :=
  ∀ w ∈ x.writeSet, lockIndex w.1 ∈ locked ∨ w.1 ∈ rest

def Here {T : Type} (m₀ : Addr → Word) (σ : Shared T) (x : Tx) : Prop :=
  match x.pc with
  | .readLocked a | .readVersion a => x.writeSet.lookup a = none
  | .readValue a ver =>
      x.writeSet.lookup a = none ∧ ver.toNat ≤ (version (σ.locks (lockIndex a))).toNat
  | .readAgain a ver val => x.writeSet.lookup a = none ∧ Fresh σ ⟨a, ver, val⟩
  | .validate rest => ∀ r ∈ x.reads, (r.addr, r.ver) ∈ rest ∨ σ.mem r.addr = r.val
  | .lock a rest locked => Current σ x ∧ Covered x locked (a :: rest)
  | .lockCas cur a rest locked =>
      Current σ x ∧ Covered x locked (a :: rest) ∧ isLocked cur = false
  | .writeBack rest _ =>
      (rest.map Prod.fst).Nodup ∧ ∀ w ∈ rest, memAt m₀ σ.log σ.sure w.1 = w.2
  | .unlockStore ver idx _ => version (σ.locks idx) = ver
  | _ => True

structure TxInv {T : Type} (m₀ : Addr → Word) (σ : Shared T) (x : Tx) : Prop where
  recorded : Recorded x
  fresh : ∀ r ∈ x.reads, Fresh σ r
  here : Here m₀ σ x

structure SharedInv {T : Type} (m₀ : Addr → Word) (σ : Shared T) (p : Pc) : Prop where
  locked : ∀ ℓ, isLocked (σ.locks ℓ) = true ↔ ℓ ∈ p.taken
  nodup : p.taken.Nodup
  pending : ∀ a ∈ p.pending, lockIndex a ∈ p.taken
  mem : ∀ a, a ∉ p.pending → σ.mem a = memAt m₀ σ.log σ.sure a
  turn : σ.turn = if p.deciding then σ.sure + 1 else σ.sure
  open_ : ∀ n, σ.sure < n → σ.log n = none
  legal : ∀ n w, 0 < n → σ.log n = some w → Legal (memAt m₀ σ.log (n - 1)) w
  ro : ∀ r ∈ σ.ro, r.1 ≤ σ.sure ∧ Legal (memAt m₀ σ.log r.1) r.2 ∧ ∀ a, lastWrite r.2 a = none

def work {T : Type} (s : Threads (Shared T) Tx T) : Pc :=
  match s.shared.holder with
  | none => .out
  | some t => (s.tx t).pc

structure Inv {T : Type} (m₀ : Addr → Word) (s : Threads (Shared T) Tx T) : Prop where
  holder : ∀ t, (s.tx t).pc.holding = true ↔ s.shared.holder = some t
  free : s.shared.commitLock = 0 ↔ s.shared.holder = none
  shared : SharedInv m₀ s.shared (work s)
  tx : ∀ t, TxInv m₀ s.shared (s.tx t)

/-- Versions do not go back, and a word whose lock is free at the version it had has not
changed. -/
structure Evolves {T : Type} (σ σ' : Shared T) : Prop where
  le : ∀ ℓ, (version (σ.locks ℓ)).toNat ≤ (version (σ'.locks ℓ)).toNat
  same : ∀ a, isLocked (σ'.locks (lockIndex a)) = false →
    version (σ'.locks (lockIndex a)) = version (σ.locks (lockIndex a)) →
      isLocked (σ.locks (lockIndex a)) = false ∧ σ'.mem a = σ.mem a

section Evolves

variable {T : Type} {m₀ : Addr → Word} {σ σ' : Shared T} {x : Tx}

theorem Evolves.of_eq (hlocks : σ'.locks = σ.locks) (hmem : σ'.mem = σ.mem) : Evolves σ σ' where
  le ℓ := by rw [hlocks]
  same a ha _ := ⟨by rwa [hlocks] at ha, by rw [hmem]⟩

theorem Fresh.evolves {r : ReadRecord} (h : Fresh σ r) (he : Evolves σ σ') : Fresh σ' r where
  le := h.le.trans (he.le _)
  value hfree hver := by
    have hsame : version (σ'.locks (lockIndex r.addr)) = version (σ.locks (lockIndex r.addr)) := by
      refine BitVec.eq_of_toNat_eq (le_antisymm ?_ (he.le _))
      rw [hver]
      exact h.le
    obtain ⟨hfree', hmem⟩ := he.same r.addr hfree hsame
    rw [hmem]
    exact h.value hfree' (hsame.symm.trans hver)

theorem TxInv.evolves (h : TxInv m₀ σ x) (he : Evolves σ σ') (hpc : x.pc.holding = false) :
    TxInv m₀ σ' x := by
  refine ⟨h.recorded, fun r hr => (h.fresh r hr).evolves he, ?_⟩
  have hhere := h.here
  unfold Here at hhere ⊢
  cases hx : x.pc with
  | readValue a ver =>
      rw [hx] at hhere
      exact ⟨hhere.1, hhere.2.trans (he.le _)⟩
  | readAgain a ver val =>
      rw [hx] at hhere
      exact ⟨hhere.1, hhere.2.evolves he⟩
  | readLocked a | readVersion a =>
      rw [hx] at hhere
      exact hhere
  | out | beginClock | body | commitLoad | commitCas => trivial
  | validate rest | lock a rest locked | lockCas cur a rest locked | writeBack rest locked
  | unlockStore ver idx rest =>
      rw [hx] at hpc
      cases hpc
  | giveUp | unlock rest | advance | release => trivial

/-- The history of the commits and the clock say nothing to a thread but to the one that
writes back. -/
theorem TxInv.of_eq (h : TxInv m₀ σ x) (hlocks : σ'.locks = σ.locks) (hmem : σ'.mem = σ.mem)
    (hlog : σ'.log = σ.log) (hsure : σ'.sure = σ.sure) : TxInv m₀ σ' x := by
  refine ⟨h.recorded, fun r hr => (h.fresh r hr).evolves (.of_eq hlocks hmem), ?_⟩
  have hhere := h.here
  unfold Here Current at hhere ⊢
  rw [hlog, hsure, hmem]
  cases hx : x.pc with
  | readAgain a ver val =>
      rw [hx] at hhere
      exact ⟨hhere.1, hhere.2.evolves (.of_eq hlocks hmem)⟩
  | readValue a ver | unlockStore ver idx rest =>
      rw [hx] at hhere
      rw [hlocks]
      exact hhere
  | _ =>
      rw [hx] at hhere
      exact hhere

end Evolves

structure Good {T : Type} [DecidableEq T] (m₀ : Addr → Word) (s : Threads (Shared T) Tx T) (t : T)
    (σ' : Shared T) (x' : Tx) : Prop where
  holder : x'.pc.holding = true ↔ σ'.holder = some t
  others : ∀ u, u ≠ t → (σ'.holder = some u ↔ s.shared.holder = some u)
  free : σ'.commitLock = 0 ↔ σ'.holder = none
  shared : SharedInv m₀ σ' (work (s.put t σ' x'))
  tx : TxInv m₀ σ' x'
  stable : ∀ u, u ≠ t → TxInv m₀ s.shared (s.tx u) → TxInv m₀ σ' (s.tx u)

section Good

variable {T : Type} [DecidableEq T] {m₀ : Addr → Word} {s : Threads (Shared T) Tx T} {t : T}
  {σ' : Shared T} {x' : Tx}

theorem Good.inv (hg : Good m₀ s t σ' x') (h : Inv m₀ s) : Inv m₀ (s.put t σ' x') where
  holder := Threads.forall_put (P := fun u (y : Tx) => y.pc.holding = true ↔
    σ'.holder = some u) hg.holder fun u hu => (h.holder u).trans (hg.others u hu).symm
  free := hg.free
  shared := hg.shared
  tx := Threads.forall_put (P := fun _ y => TxInv m₀ σ' y) hg.tx
    fun u hu => hg.stable u hu (h.tx u)

variable (h : Inv m₀ s)
include h

omit [DecidableEq T] in
theorem work_eq (ht : (s.tx t).pc.holding = true) : work s = (s.tx t).pc := by
  rw [work, (h.holder t).1 ht]

omit [DecidableEq T] in
theorem not_holding {u : T} (hu : u ≠ t) (ht : (s.tx t).pc.holding = true) :
    (s.tx u).pc.holding = false := by
  rw [Bool.eq_false_iff, ne_eq, h.holder u, (h.holder t).1 ht]
  simp [hu.symm]

theorem good_outside (hpc : (s.tx t).pc.holding = false) (hpc' : x'.pc.holding = false)
    (hshared : SharedInv m₀ σ' (work s)) (hholder : σ'.holder = s.shared.holder)
    (hlock : σ'.commitLock = s.shared.commitLock) (hlocks : σ'.locks = s.shared.locks)
    (hmem : σ'.mem = s.shared.mem) (hlog : σ'.log = s.shared.log)
    (hsure : σ'.sure = s.shared.sure) (htx : TxInv m₀ s.shared x') : Good m₀ s t σ' x' := by
  have ht : s.shared.holder ≠ some t := by
    rw [ne_eq, ← h.holder t, hpc]
    decide
  refine ⟨?_, fun u _ => by rw [hholder], ?_, ?_, htx.of_eq hlocks hmem hlog hsure,
    fun u _ hu => hu.of_eq hlocks hmem hlog hsure⟩
  · rw [hpc', hholder]
    simpa using ht
  · rw [hlock, hholder]
    exact h.free
  · have hwork : work (s.put t σ' x') = work s := by
      unfold work
      rw [Threads.put_shared, hholder]
      cases hu : s.shared.holder with
      | none => rfl
      | some u => exact congrArg Tx.pc (Threads.put_tx_of_ne fun heq => ht (heq ▸ hu))
    rwa [hwork]

/-- A step that leaves the shared state as it is, of a thread that does not hold
`COMMIT_LOCK`. -/
theorem good_local (hpc : (s.tx t).pc.holding = false) (hpc' : x'.pc.holding = false)
    (htx : TxInv m₀ s.shared x') : Good m₀ s t s.shared x' :=
  good_outside h hpc hpc' h.shared rfl rfl rfl rfl rfl rfl htx

theorem good_inside (hpc : (s.tx t).pc.holding = true) (hpc' : x'.pc.holding = true)
    (hholder : σ'.holder = s.shared.holder) (hlock : σ'.commitLock = s.shared.commitLock)
    (he : Evolves s.shared σ') (hshared : SharedInv m₀ σ' x'.pc) (htx : TxInv m₀ σ' x') :
    Good m₀ s t σ' x' := by
  have ht := (h.holder t).1 hpc
  refine ⟨?_, fun u _ => by rw [hholder], ?_, ?_, htx,
    fun u hu hx => hx.evolves he (not_holding h hu hpc)⟩
  · rw [hpc', hholder, ht]
    simp
  · rw [hlock, hholder]
    exact h.free
  · have hwork : work (s.put t σ' x') = x'.pc := by
      unfold work
      rw [Threads.put_shared, hholder, ht]
      exact congrArg Tx.pc Threads.put_tx_self
    rwa [hwork]

theorem good_acquire (hfree : s.shared.commitLock = 0) (hpc' : x'.pc.holding = true)
    (hholder : σ'.holder = some t) (hlock : σ'.commitLock ≠ 0)
    (he : Evolves s.shared σ') (hshared : SharedInv m₀ σ' x'.pc) (htx : TxInv m₀ σ' x') :
    Good m₀ s t σ' x' := by
  have hnone := h.free.1 hfree
  refine ⟨by rw [hpc', hholder]; simp, fun u hu => by rw [hholder, hnone]; simp [hu.symm],
    by rw [hholder]; simpa using hlock, ?_, htx, fun u hu hx => hx.evolves he ?_⟩
  · have hwork : work (s.put t σ' x') = x'.pc := by
      unfold work
      rw [Threads.put_shared, hholder]
      exact congrArg Tx.pc Threads.put_tx_self
    rwa [hwork]
  · rw [Bool.eq_false_iff, ne_eq, h.holder u, hnone]
    simp

theorem good_release (hpc : (s.tx t).pc.holding = true) (hpc' : x'.pc.holding = false)
    (hholder : σ'.holder = none) (hlock : σ'.commitLock = 0)
    (he : Evolves s.shared σ') (hshared : SharedInv m₀ σ' .out) (htx : TxInv m₀ σ' x') :
    Good m₀ s t σ' x' := by
  have ht := (h.holder t).1 hpc
  refine ⟨by rw [hpc', hholder]; simp, fun u hu => by rw [hholder, ht]; simp [hu.symm],
    by simp [hholder, hlock], ?_, htx, fun u hu hx => hx.evolves he (not_holding h hu hpc)⟩
  have hwork : work (s.put t σ' x') = .out := by
    unfold work
    rw [Threads.put_shared, hholder]
  rwa [hwork]

end Good

end Rust.TL2
