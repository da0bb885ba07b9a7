import ClangTM.TinySTM.System

/-!
# The steps of the shared routines

What one step of `tm_token_soft_spin`, `try_lock` and `unlock` can do, and what a
thread knows in the middle of them. The designs use these lemmas wherever they call
the routines.
-/

namespace TinySTM

open VersionLock

section Routines

variable {σ : Shared} {t u : TxId} {ℓ : LockIdx} {m₀ : WordAddr → Word} {v v' : Proto}

theorem TokenPc.step_same (p : TokenPc) (σ : Shared) (t : TxId) : σ.Same (p.step σ t).1 := by
  cases p with
  | load => exact Shared.Same.refl σ
  | cas =>
      rw [TokenPc.step]
      split
      · exact ⟨rfl, rfl, rfl, rfl⟩
      · exact Shared.Same.refl σ

theorem TokenPc.step_mem (p : TokenPc) (σ : Shared) (t : TxId) : (p.step σ t).1.mem = σ.mem := by
  cases p with
  | load => rfl
  | cas =>
      rw [TokenPc.step]
      split <;> rfl

/-- The compare-and-swap of `try_lock` expects a word that is not owned. -/
def TryLockPc.Free (p : TryLockPc) : Prop :=
  ∀ current, p = .cas current → isOwned current = false

theorem TryLockPc.free_load : TryLockPc.load.Free := by
  simp [TryLockPc.Free]

theorem TryLockPc.step_cases {p : TryLockPc} (h : p.Free) (σ : Shared) (t : TxId)
    (ℓ : LockIdx) :
    (∃ p' : TryLockPc, p.step σ t ℓ = (σ, .inl p') ∧ p'.Free) ∨
      p.step σ t ℓ = (σ, .inr false) ∨
      p.step σ t ℓ = (σ.setLock ℓ (lockedBy (σ.locks ℓ) t), .inr true) ∧
        isOwned (σ.locks ℓ) = false := by
  cases p with
  | load =>
      rw [TryLockPc.step]
      split
      · exact .inr (.inl rfl)
      · next hfree =>
          refine .inl ⟨_, rfl, ?_⟩
          rintro current ⟨rfl⟩
          simpa using hfree
  | cas current =>
      rw [TryLockPc.step]
      split
      · next hl =>
          subst hl
          exact .inr (.inr ⟨rfl, h _ rfl⟩)
      · exact .inr (.inl rfl)

def UnlockPc.Knows (v : Proto) (t : TxId) (ℓ : LockIdx) (p : UnlockPc) : Prop :=
  (p = .clear → v.owner ℓ = some t) ∧ (p = .recheck → v.owner ℓ ≠ some t)

theorem UnlockPc.knows_check : UnlockPc.check.Knows v t ℓ := by
  simp [UnlockPc.Knows]

theorem UnlockPc.Knows.moves {p : UnlockPc} (h : p.Knows v t ℓ)
    (hm : Moves lockOf m₀ v u v') (hne : t ≠ u) : p.Knows v' t ℓ :=
  ⟨fun hp => (hm.owner_iff hne ℓ).2 (h.1 hp), fun hp ho => h.2 hp ((hm.owner_iff hne ℓ).1 ho)⟩

theorem UnlockPc.step_cases {p : UnlockPc} (h : p.Knows v t ℓ) (hb : Backed m₀ σ v) :
    (∃ p' : UnlockPc, p.step σ t ℓ = (σ, .inl p') ∧ p'.Knows v t ℓ) ∨
      p.step σ t ℓ = (σ, .inr ()) ∧ v.owner ℓ ≠ some t ∨
      p.step σ t ℓ = (σ.setLock ℓ (unlocked (σ.locks ℓ)), .inr ()) ∧ v.owner ℓ = some t := by
  cases p with
  | check =>
      refine .inl ⟨_, rfl, ?_⟩
      split
      · simp [UnlockPc.Knows]
      · next hfree =>
          refine ⟨by simp, fun _ ho => hfree ?_⟩
          rw [hb.owner] at ho
          exact (lockOwner_eq_some_iff.1 ho).1
  | owner =>
      refine .inl ⟨_, rfl, ?_⟩
      split
      · next howner =>
          refine ⟨fun _ => ?_, by simp⟩
          rw [hb.owner]
          exact (hb.wordOk ℓ).lockOwner_of_ownerOf howner
      · next howner =>
          refine ⟨by simp, fun _ ho => howner ?_⟩
          rw [hb.owner] at ho
          exact (lockOwner_eq_some_iff.1 ho).2
  | clear => exact .inr (.inr ⟨rfl, h.1 rfl⟩)
  | recheck => exact .inr (.inl ⟨rfl, h.2 rfl⟩)

end Routines

end TinySTM
