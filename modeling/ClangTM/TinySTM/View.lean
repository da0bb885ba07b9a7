import ClangTM.TinySTM.Common
import ClangTM.VersionLock.Moves

/-!
# TinySTM as a versioned-lock protocol

The state of every TinySTM design is a state of the versioned-lock protocol: the
owner and version of a lock are fields of its word, and the recorded reads, the
trace and the commit version of a transaction are its history. The lemmas below
turn what a step does to the lock table, the clock and the history into a move of
the protocol.
-/

namespace TinySTM

open Serial

section LockOwner

theorem ownerOf_lt (l : Word) : ownerOf l < maxThreads := by
  have hword : (l &&& (threadMask <<< lockBits)) >>> lockBits =
      (l >>> lockBits) &&& threadMask := by
    refine BitVec.eq_of_getLsbD_eq fun i hi => ?_
    simp only [BitVec.getLsbD_ushiftRight, BitVec.getLsbD_and, BitVec.getLsbD_shiftLeft,
      getLsbD_threadMask, lockBits, ownedBits, incarnationBits]
    by_cases h : i < 13
    · simp [h, show 5 + i < 64 by omega]
    · simp [h]
  have hmask : threadMask.toNat = 2 ^ 13 - 1 := rfl
  rw [ownerOf, hword, BitVec.toNat_and, hmask, Nat.and_two_pow_sub_one_eq_mod]
  exact Nat.mod_lt _ (by decide)

def lockOwner (l : Word) : Option TxId :=
  if h : isOwned l = true ∧ 0 < ownerOf l then some ⟨ownerOf l, h.2, ownerOf_lt l⟩ else none

theorem lockOwner_eq_some_iff {l : Word} {t : TxId} :
    lockOwner l = some t ↔ isOwned l = true ∧ ownerOf l = t.val := by
  obtain ⟨n, hpos, hlt⟩ := t
  unfold lockOwner
  split
  · next h => simp [h.1]
  · next h =>
      simp only [reduceCtorEq, false_iff]
      rintro ⟨howned, rfl⟩
      exact h ⟨howned, hpos⟩

theorem isLockedBy_iff {l : Word} {t : TxId} : isLockedBy l t = true ↔ lockOwner l = some t := by
  simp [isLockedBy, lockOwner_eq_some_iff]

theorem lockOwner_eq_none {l : Word} (h : isOwned l = false) : lockOwner l = none := by
  simp [lockOwner, h]

@[simp] theorem lockOwner_lockedBy (l : Word) (t : TxId) : lockOwner (lockedBy l t) = some t := by
  simp [lockOwner_eq_some_iff]

@[simp] theorem lockOwner_unlocked (l : Word) : lockOwner (unlocked l) = none :=
  lockOwner_eq_none (isOwned_unlocked l)

@[simp] theorem lockOwner_withVersion (v : ℕ) : lockOwner (withVersion v) = none :=
  lockOwner_eq_none (isOwned_withVersion v)

/-- A lock word names an owner if and only if it is owned. -/
def WordOk (l : Word) : Prop := isOwned l = true ↔ 0 < ownerOf l

namespace WordOk

variable {l : Word}

theorem zero : WordOk 0 := by
  simp [WordOk]

theorem lockedBy (l : Word) (t : TxId) : WordOk (lockedBy l t) := by
  simp [WordOk, t.pos]

theorem unlocked (l : Word) : WordOk (unlocked l) := by
  simp [WordOk]

theorem withVersion (v : ℕ) : WordOk (withVersion v) := by
  simp [WordOk]

theorem lockOwner_of_ownerOf (h : WordOk l) {t : TxId} (ho : ownerOf l = t.val) :
    lockOwner l = some t := by
  refine lockOwner_eq_some_iff.2 ⟨h.2 ?_, ho⟩
  rw [ho]
  exact t.pos

end WordOk

theorem ReadLogEntry.not_stale {r : ReadLogEntry} {t : TxId} {l : Word}
    (h : r.stale t l = false) :
    (∀ u, lockOwner l = some u → u = t) ∧ versionOf l ≤ r.observedVersion := by
  rw [ReadLogEntry.stale, Bool.or_eq_false_iff] at h
  obtain ⟨hown, hver⟩ := h
  refine ⟨fun u hu => ?_, by simpa using hver⟩
  obtain ⟨howned, howner⟩ := lockOwner_eq_some_iff.1 hu
  obtain ⟨n, hpos, hlt⟩ := u
  obtain ⟨m, hpos', hlt'⟩ := t
  simp_all

end LockOwner

section View

variable {X : Type} (hist : X → VersionLock.Tx WordAddr Word)

def State.view (s : State X) : VersionLock.State WordAddr Word LockIdx TxId where
  clock := s.shared.gClock
  owner ℓ := lockOwner (s.shared.locks ℓ)
  ver ℓ := versionOf (s.shared.locks ℓ)
  log := s.shared.log
  ro := s.shared.ro
  tx t := hist (s.tx t)

def State.put (s : State X) (t : TxId) (σ : Shared) (x : X) : State X :=
  ⟨σ, Function.update s.tx t x⟩

variable {hist} {s : State X} {t : TxId} {σ : Shared} {x : X} {m₀ : WordAddr → Word}

@[simp] theorem State.put_shared : (s.put t σ x).shared = σ := rfl

@[simp] theorem State.put_tx_self : (s.put t σ x).tx t = x := Function.update_self _ _ _

theorem State.put_tx_of_ne {u : TxId} (h : u ≠ t) : (s.put t σ x).tx u = s.tx u :=
  Function.update_of_ne h _ _

theorem State.put_self : s.put t s.shared (s.tx t) = s := by
  rw [State.put, Function.update_eq_self]

theorem State.step_eq_some {next : TxId → Shared → X → TxCall → Option (Shared × X)}
    {l : TxId × TxCall} {s' : State X} (h : State.step next s l = some s') :
    ∃ σ x, next l.1 s.shared (s.tx l.1) l.2 = some (σ, x) ∧ s' = s.put l.1 σ x := by
  obtain ⟨⟨σ, x⟩, hnext, rfl⟩ := Option.map_eq_some_iff.1 h
  exact ⟨σ, x, hnext, rfl⟩

theorem State.view_put_tx : ((s.put t σ x).view hist).tx =
    Function.update (s.view hist).tx t (hist x) := by
  funext u
  by_cases hu : u = t
  · subst hu
    simp [State.view]
  · simp [State.view, State.put_tx_of_ne hu, hu]

@[simp] theorem State.view_put_tx_self : ((s.put t σ x).view hist).tx t = hist x := by
  simp [State.view]

theorem State.view_put_congr {x' : X} (h : hist x = hist x') :
    (s.put t σ x).view hist = (s.put t σ x').view hist := by
  refine VersionLock.State.ext rfl rfl rfl rfl rfl ?_
  rw [State.view_put_tx, State.view_put_tx, h]

/-- The parts of the shared state that the protocol sees. -/
structure Shared.Same (σ σ' : Shared) : Prop where
  clock : σ'.gClock = σ.gClock
  locks : σ'.locks = σ.locks
  log : σ'.log = σ.log
  ro : σ'.ro = σ.ro

theorem Shared.Same.refl (σ : Shared) : σ.Same σ := ⟨rfl, rfl, rfl, rfl⟩

theorem Shared.same_releaseTokenIfHeld (σ : Shared) (t : TxId) :
    σ.Same (σ.releaseTokenIfHeld t) := by
  unfold Shared.releaseTokenIfHeld
  split
  · exact ⟨rfl, rfl, rfl, rfl⟩
  · exact Shared.Same.refl σ

theorem Shared.mem_releaseTokenIfHeld (σ : Shared) (t : TxId) :
    (σ.releaseTokenIfHeld t).mem = σ.mem := by
  unfold Shared.releaseTokenIfHeld
  split <;> rfl

theorem State.view_put (h : s.shared.Same σ) :
    (s.put t σ x).view hist = (s.view hist).setTx t (hist x) := by
  refine VersionLock.State.ext h.clock ?_ ?_ h.log h.ro State.view_put_tx
  · exact congrArg (lockOwner ∘ ·) h.locks
  · exact congrArg (versionOf ∘ ·) h.locks

theorem State.view_put_eq (h : s.shared.Same σ) (hx : hist x = hist (s.tx t)) :
    (s.put t σ x).view hist = s.view hist := by
  rw [State.view_put h, hx]
  exact VersionLock.State.setTx_self _ _

theorem State.view_setLock (ℓ : LockIdx) (w : Word) (hx : hist x = hist (s.tx t)) :
    (s.put t (s.shared.setLock ℓ w) x).view hist =
      { s.view hist with
        owner := Function.update (s.view hist).owner ℓ (lockOwner w)
        ver := Function.update (s.view hist).ver ℓ (versionOf w) } := by
  have htx : ((s.put t (s.shared.setLock ℓ w) x).view hist).tx = (s.view hist).tx := by
    rw [State.view_put_tx, hx]
    exact Function.update_eq_self _ _
  refine VersionLock.State.ext rfl ?_ ?_ rfl rfl htx
  · exact Function.comp_update lockOwner _ _ _
  · exact Function.comp_update versionOf _ _ _

theorem State.view_setLock_owner (ℓ ℓ' : LockIdx) (w : Word) :
    ((s.put t (s.shared.setLock ℓ w) x).view hist).owner ℓ' =
      if ℓ' = ℓ then lockOwner w else lockOwner (s.shared.locks ℓ') := by
  simp only [State.view, State.put_shared, Shared.setLock, Function.update_apply]
  split <;> rfl

theorem WordOk.setLock {σ : Shared} (h : ∀ ℓ, WordOk (σ.locks ℓ)) (ℓ : LockIdx) {w : Word}
    (hw : WordOk w) (ℓ' : LockIdx) : WordOk ((σ.setLock ℓ w).locks ℓ') := by
  simp only [Shared.setLock, Function.update_apply]
  split
  · exact hw
  · exact h ℓ'

theorem State.view_bump (hclock : σ.gClock = s.shared.gClock + 1)
    (hlocks : σ.locks = s.shared.locks) (hlog : σ.log = s.shared.log)
    (hro : σ.ro = s.shared.ro) :
    (s.put t σ x).view hist =
      { (s.view hist).setTx t (hist x) with clock := (s.view hist).clock + 1 } := by
  refine VersionLock.State.ext hclock ?_ ?_ hlog hro State.view_put_tx
  · exact congrArg (lockOwner ∘ ·) hlocks
  · exact congrArg (versionOf ∘ ·) hlocks

variable (hist m₀) {ℓ : LockIdx}

theorem State.step_acquire (hcv : (hist (s.tx t)).cv = none)
    (hfree : isOwned (s.shared.locks ℓ) = false) (hx : hist x = hist (s.tx t)) :
    VersionLock.Step lockOf m₀ (s.view hist) t
      ((s.put t (s.shared.setLock ℓ (lockedBy (s.shared.locks ℓ) t)) x).view hist) := by
  have hver : Function.update (s.view hist).ver ℓ
      (versionOf (lockedBy (s.shared.locks ℓ) t)) = (s.view hist).ver := by
    rw [versionOf_lockedBy]
    exact Function.update_eq_self _ _
  rw [State.view_setLock ℓ _ hx, hver, lockOwner_lockedBy]
  exact .acquire ℓ hcv (lockOwner_eq_none hfree)

theorem State.step_unlock (hd : (hist (s.tx t)).done = false)
    (hown : lockOwner (s.shared.locks ℓ) = some t) (hx : hist x = hist (s.tx t)) :
    VersionLock.Step lockOf m₀ (s.view hist) t
      ((s.put t (s.shared.setLock ℓ (unlocked (s.shared.locks ℓ))) x).view hist) := by
  have hver : Function.update (s.view hist).ver ℓ (versionOf (unlocked (s.shared.locks ℓ))) =
      (s.view hist).ver := by
    rw [versionOf_unlocked]
    exact Function.update_eq_self _ _
  rw [State.view_setLock ℓ _ hx, hver, lockOwner_unlocked]
  exact .unlock ℓ hd hown

theorem State.step_release {c : ℕ} (hcv : (hist (s.tx t)).cv = some c)
    (hd : (hist (s.tx t)).done = true) (hown : lockOwner (s.shared.locks ℓ) = some t)
    (hc : c < 2 ^ 46) (hx : hist x = hist (s.tx t)) :
    VersionLock.Step lockOf m₀ (s.view hist) t
      ((s.put t (s.shared.setLock ℓ (withVersion c)) x).view hist) := by
  rw [State.view_setLock ℓ _ hx, lockOwner_withVersion, versionOf_withVersion hc]
  exact .release ℓ c hcv hd hown

theorem State.step_tick (hcv : (hist (s.tx t)).cv = none)
    (hclock : σ.gClock = s.shared.gClock + 1) (hlocks : σ.locks = s.shared.locks)
    (hlog : σ.log = s.shared.log) (hro : σ.ro = s.shared.ro)
    (hx : hist x = { hist (s.tx t) with cv := some (s.shared.gClock + 1) }) :
    VersionLock.Step lockOf m₀ (s.view hist) t ((s.put t σ x).view hist) := by
  rw [State.view_bump hclock hlocks hlog hro, hx]
  exact .tick hcv

theorem State.step_skip (hclock : σ.gClock = s.shared.gClock + 1)
    (hlocks : σ.locks = s.shared.locks) (hlog : σ.log = s.shared.log)
    (hro : σ.ro = s.shared.ro) (hx : hist x = hist (s.tx t)) :
    VersionLock.Step lockOf m₀ (s.view hist) t ((s.put t σ x).view hist) := by
  have hself : (s.view hist).setTx t (hist x) = s.view hist := by
    rw [hx]
    exact VersionLock.State.setTx_self _ _
  rw [State.view_bump hclock hlocks hlog hro, hself]
  exact .skip

theorem State.step_overflow (hd : (hist (s.tx t)).done = false)
    (hclock : σ.gClock = s.shared.gClock + 1) (hlocks : σ.locks = s.shared.locks)
    (hlog : σ.log = s.shared.log) (hro : σ.ro = s.shared.ro) (hx : hist x = {}) :
    VersionLock.Step lockOf m₀ (s.view hist) t ((s.put t σ x).view hist) := by
  rw [State.view_bump hclock hlocks hlog hro, hx]
  exact .overflow hd

theorem State.step_commit {c : ℕ} (hcv : (hist (s.tx t)).cv = some c)
    (hd : (hist (s.tx t)).done = false)
    (hsafe : ∀ r ∈ (hist (s.tx t)).reads,
      VersionLock.Safe lockOf (s.view hist) t r (c - 1))
    (hown : ∀ a v, lastWrite (hist (s.tx t)).trace a = some v →
      lockOwner (s.shared.locks (lockOf a)) = some t)
    (hx : hist x = { hist (s.tx t) with done := true }) :
    VersionLock.Step lockOf m₀ (s.view hist) t
      ((s.put t { s.shared with log := enter s.shared.log c (hist (s.tx t)).trace } x).view
        hist) := by
  have hview : (s.put t { s.shared with log := enter s.shared.log c (hist (s.tx t)).trace }
      x).view hist =
      { (s.view hist).setTx t { (s.view hist).tx t with done := true } with
        log := enter (s.view hist).log c ((s.view hist).tx t).trace } :=
    VersionLock.State.ext rfl rfl rfl rfl rfl (hx ▸ State.view_put_tx)
  rw [hview]
  exact .commit c hcv hd hsafe hown

theorem State.step_commitReadOnly {e : ℕ} (hcv : (hist (s.tx t)).cv = none)
    (he : e ≤ s.shared.gClock) (hro : ∀ a, lastWrite (hist (s.tx t)).trace a = none)
    (hsafe : ∀ r ∈ (hist (s.tx t)).reads,
      r.ver ≤ e ∧ VersionLock.Safe lockOf (s.view hist) t r e)
    (hclock : σ.gClock = s.shared.gClock) (hlocks : σ.locks = s.shared.locks)
    (hlog : σ.log = s.shared.log)
    (hσ : σ.ro = (e, (hist (s.tx t)).trace) :: s.shared.ro) (hx : hist x = {}) :
    VersionLock.Step lockOf m₀ (s.view hist) t ((s.put t σ x).view hist) := by
  have hview : (s.put t σ x).view hist =
      { (s.view hist).setTx t {} with
        ro := (e, ((s.view hist).tx t).trace) :: (s.view hist).ro } := by
    refine VersionLock.State.ext hclock ?_ ?_ hlog hσ (hx ▸ State.view_put_tx)
    · exact congrArg (lockOwner ∘ ·) hlocks
    · exact congrArg (versionOf ∘ ·) hlocks
  rw [hview]
  exact .commitReadOnly e hcv he hro hsafe

end View

end TinySTM
