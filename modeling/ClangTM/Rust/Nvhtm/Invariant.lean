import ClangTM.Rust.Nvhtm.Basic

/-!
# The invariant of `nvhtm` and `spht`

A version and the value read with it are fresh in the sense of `CommitLock`: the locks of a
commit are dirty from the end of its validation until they are given back, each with a larger
version. While nobody holds the odd clock, twice the version of a lock is at most the clock; a
commit gives each of its locks back once, and then advances the clock to the next even number.
-/

namespace Rust.Nvhtm

open Serial Transition CommitLock

section Word

theorem toNat_and_one (w : Word) : (w &&& 1).toNat = w.toNat % 2 := by
  rw [BitVec.toNat_and]
  exact Nat.and_one_is_mod _

theorem and_one_eq_zero_iff (w : Word) : w &&& 1 = 0 ↔ w.toNat % 2 = 0 := by
  rw [← BitVec.toNat_inj, toNat_and_one]
  rfl

theorem isLocked_iff (w : Word) : isLocked w = true ↔ w.toNat % 2 = 1 := by
  rw [isLocked, bne_iff_ne, ne_eq, and_one_eq_zero_iff]
  omega

theorem toNat_version (w : Word) : (version w).toNat = w.toNat / 2 := by
  rw [version, BitVec.toNat_ushiftRight]
  rfl

theorem version_or_one (w : Word) : version (w ||| 1) = version w := by
  refine BitVec.eq_of_getLsbD_eq fun i hi => ?_
  simp [version, BitVec.getLsbD_one]

theorem toNat_or_one (w : Word) : (w ||| 1).toNat = 2 * (w.toNat / 2) + 1 := by
  have hver := congrArg BitVec.toNat (version_or_one w)
  rw [toNat_version, toNat_version] at hver
  have hodd : (w ||| 1).toNat % 2 = 1 := by
    rw [← toNat_and_one]
    have : (w ||| 1) &&& 1 = 1 := by
      refine BitVec.eq_of_getLsbD_eq fun i hi => ?_
      by_cases h : i = 0 <;> simp [BitVec.getLsbD_one, h]
    rw [this]
    rfl
  omega

theorem toNat_unlocked {w : Word} (h : w.toNat + 2 < 2 ^ 64) :
    (unlocked w).toNat = 2 * (w.toNat / 2 + 1) := by
  have hver := toNat_version w
  rw [version] at hver
  have hone : (1 : Word).toNat = 1 := rfl
  rw [unlocked, BitVec.toNat_shiftLeft, BitVec.toNat_add, hver, hone, Nat.shiftLeft_eq]
  omega

theorem isLocked_unlocked (w : Word) : isLocked (unlocked w) = false := by
  rw [Bool.eq_false_iff, ne_eq, isLocked_iff, unlocked, BitVec.toNat_shiftLeft, Nat.shiftLeft_eq]
  omega

end Word

def Pc.holding : Pc → Bool
  | .lock _ | .lockCas .. | .validate _ | .writeBack _ | .unlock .. | .unlockStore ..
  | .release _ => true
  | _ => false

namespace Tx

variable (x : Tx)

def held : List LockIdx :=
  match x.pc with
  | .lock rest | .lockCas _ rest => x.idxs.filter fun ℓ => ℓ ∉ rest
  | .validate _ | .writeBack _ => x.idxs
  | .unlock rest _ | .unlockStore _ rest _ => rest
  | _ => []

/-- A comparison about the read is still to be made. -/
def Due (rest : List (Addr × Word)) (r : Seen Addr Word) : Prop :=
  ∃ ver : Word, (r.addr, ver) ∈ rest ∧ ver.toNat = r.ver

end Tx

section

variable {T : Type} (m₀ : Addr → Word) (σ : Shared T) (x : Tx)

def core : Core Addr Word LockIdx T where
  mem := σ.mem
  ver ℓ := (version (σ.locks ℓ)).toNat
  cap ℓ := (version (σ.locks ℓ)).toNat
  dirty := σ.dirty
  holder := σ.holder
  commits := σ.log.length

def Shared.Idle : Prop := σ.pending = [] ∧ σ.dirty = []

def Locked (ls : List LockIdx) : Prop := ∀ ℓ, isLocked (σ.locks ℓ) = true ↔ ℓ ∈ ls

def Low (ls : List LockIdx) : Prop :=
  ∀ ℓ ∈ ls, 2 * (version (σ.locks ℓ)).toNat < σ.gClock.toNat

structure Returning (rest : List LockIdx) : Prop where
  written : σ.pending = []
  dirty : ∀ ℓ ∈ σ.dirty, ℓ ∈ rest
  nodup : rest.Nodup
  low : Low σ rest

def Here : Prop :=
  match x.pc with
  | .readSpin a | .readVersion a => x.writeSet.lookup a = none
  | .readValue a ver =>
      x.writeSet.lookup a = none ∧ ver.toNat ≤ (core σ).cap (lockIndex a)
  | .readAgain a ver val =>
      x.writeSet.lookup a = none ∧ Fresh lockIndex (core σ) ⟨a, ver.toNat, val⟩
  | .acquireCas cur => cur.toNat % 2 = 0
  | .lock rest | .lockCas _ rest => rest <:+ x.idxs ∧ σ.Idle ∧ Low σ x.idxs
  | .validate rest =>
      σ.Idle ∧ Low σ x.idxs ∧ ∀ r ∈ x.reads, Tx.Due rest r ∨ σ.mem r.addr = r.val
  | .writeBack rest => σ.pending = rest ∧ σ.dirty = x.idxs ∧ Low σ x.idxs
  | .unlock rest _ => Returning σ rest
  | .unlockStore cur rest _ => Returning σ rest ∧ ∀ ℓ ∈ rest.head?, σ.locks ℓ = cur
  | .release _ => σ.Idle
  | _ => True

structure Knows : Prop where
  buffered : Buffered x.ops x.writeSet (x.reads.map fun r => (r.addr, r.val))
  replayed : Replayed x.ops x.writeSet x.writeBacks
  fresh : ∀ r ∈ x.reads, Fresh lockIndex (core σ) r
  listed : ∀ r ∈ x.reads, Tx.Due x.readSet r
  begun : x.begun ≤ σ.log.length
  locked : x.pc.holding = true → Locked σ x.held
  here : Here σ x

structure Shape : Prop where
  runs : SerialRun m₀ σ.log (writeAll σ.mem σ.pending)
  covered : ∀ w ∈ σ.pending, lockIndex w.1 ∈ σ.dirty
  odd : σ.gClock.toNat % 2 = 1 ↔ σ.holder ≠ none
  idle : σ.holder = none → σ.Idle ∧ Locked σ []
  ver_le : ∀ ℓ, 2 * (version (σ.locks ℓ)).toNat ≤ σ.gClock.toNat + σ.gClock.toNat % 2
  room : σ.gClock.toNat + 1 < 2 ^ 64
  ro : ∀ r ∈ σ.ro, r.settled = true → Coexisted m₀ σ.log r

end

section Stable

variable {T : Type} {m₀ : Addr → Word} {σ σ' : Shared T} {x : Tx}

theorem Knows.stable (h : Knows σ x) (he : Evolves lockIndex (core σ) (core σ'))
    (hpc : x.pc.holding = false) : Knows σ' x := by
  refine ⟨h.buffered, h.replayed, fun r hr => (h.fresh r hr).evolves he, h.listed,
    h.begun.trans he.commits, fun hhold => absurd (hhold.symm.trans hpc) (by simp), ?_⟩
  have hhere := h.here
  unfold Here at hhere ⊢
  cases hx : x.pc with
  | readValue a ver =>
      rw [hx] at hhere
      exact ⟨hhere.1, hhere.2.trans (he.cap _)⟩
  | readAgain a ver val =>
      rw [hx] at hhere
      exact ⟨hhere.1, hhere.2.evolves he⟩
  | out | beginClock | body | readSpin a | readVersion a | acquire | acquireCas cur =>
      rw [hx] at hhere
      exact hhere
  | _ =>
      rw [hx] at hpc
      cases hpc

theorem Knows.record (h : Knows σ x) (ro : List (ReadOnly Addr Word)) :
    Knows { σ with ro := ro } x := by
  refine ⟨h.buffered, h.replayed, h.fresh, h.listed, h.begun, h.locked, ?_⟩
  have hhere := h.here
  unfold Here at hhere ⊢
  cases hx : x.pc with
  | unlock rest result =>
      rw [hx] at hhere
      exact ⟨hhere.written, hhere.dirty, hhere.nodup, hhere.low⟩
  | unlockStore cur rest result =>
      rw [hx] at hhere
      exact ⟨⟨hhere.1.written, hhere.1.dirty, hhere.1.nodup, hhere.1.low⟩, hhere.2⟩
  | _ =>
      rw [hx] at hhere
      exact hhere

def system (T : Type) (m₀ : Addr → Word) : System Addr Word LockIdx T (Shared T) Tx where
  slot := lockIndex
  core := core
  holding x := x.pc.holding
  Shape := Shape m₀
  Knows := Knows
  stable := Knows.stable

theorem Knows.blank (hops : x.ops = []) (hreads : x.reads = []) (hwrites : x.writeSet = [])
    (hbacks : x.writeBacks = []) (hbegun : x.begun ≤ σ.log.length)
    (hpc : x.pc.holding = false) (hhere : Here σ x) : Knows σ x where
  buffered := by
    rw [hops, hreads, hwrites]
    exact .nil
  replayed := by
    rw [hops, hwrites, hbacks]
    exact .nil
  fresh r hr := by rw [hreads] at hr; cases hr
  listed r hr := by rw [hreads] at hr; cases hr
  begun := hbegun
  locked hhold := absurd (hhold.symm.trans hpc) (by simp)
  here := hhere

theorem Knows.finish (σ : Shared T) (result : Option Bool) : Knows σ (Tx.finish result) :=
  .blank rfl rfl rfl rfl (Nat.zero_le _) rfl trivial

theorem Knows.goto (h : Knows σ x) {pc : Pc}
    (hlocked : pc.holding = true → Locked σ { x with pc := pc }.held)
    (hhere : Here σ { x with pc := pc }) : Knows σ { x with pc := pc } :=
  ⟨h.buffered, h.replayed, h.fresh, h.listed, h.begun, hlocked, hhere⟩

theorem Knows.at (h : Knows σ x) {pc : Pc} (hpc : x.pc = pc) : Here σ { x with pc := pc } := by
  subst hpc
  exact h.here

theorem Knows.lockedAt (h : Knows σ x) {pc : Pc} (hpc : x.pc = pc) (hhold : pc.holding = true) :
    Locked σ { x with pc := pc }.held := by
  subst hpc
  exact h.locked hhold

end Stable

end Rust.Nvhtm
