import ClangTM.VersionLock.Snapshot

/-!
# Moves of an implementation

A step of an implementation is a step of the protocol or leaves its state as it is.
`Moves` says so, and the lemmas below are the stability lemmas of the protocol in
that form: what a thread has established about the locks and its recorded reads is
not affected by the moves of the other threads.
-/

namespace VersionLock

open Serial

variable {A V L T : Type*} [DecidableEq A] [DecidableEq L] [DecidableEq T]

def Moves (lock : A → L) (m₀ : A → V) (s : State A V L T) (t : T) (s' : State A V L T) :
    Prop :=
  s' = s ∨ Step lock m₀ s t s'

namespace Moves

variable {lock : A → L} {m₀ : A → V} {s s' : State A V L T} {t u : T}

theorem inv (h : Inv lock m₀ s) (hm : Moves lock m₀ s t s') : Inv lock m₀ s' := by
  rcases hm with rfl | hs
  · exact h
  · exact h.step hs

theorem clock_le (hm : Moves lock m₀ s t s') : s.clock ≤ s'.clock := by
  rcases hm with rfl | hs
  · exact le_rfl
  · exact hs.clock_le

theorem ver_le (h : Inv lock m₀ s) (hm : Moves lock m₀ s t s') (ℓ : L) :
    s.ver ℓ ≤ s'.ver ℓ := by
  rcases hm with rfl | hs
  · exact le_rfl
  · exact hs.ver_le h ℓ

section

variable (hm : Moves lock m₀ s t s')
include hm

theorem owner_iff (hne : u ≠ t) (ℓ : L) : s'.owner ℓ = some u ↔ s.owner ℓ = some u := by
  rcases hm with rfl | hs
  · exact Iff.rfl
  · exact hs.owner_iff_of_ne hne ℓ

/-- Only the holder of a lock, once it has committed, changes its version. -/
theorem ver_eq {ℓ : L} (ho : s.owner ℓ = some t → (s'.tx t).done = false) : s'.ver ℓ = s.ver ℓ := by
  rcases hm with rfl | hs
  · rfl
  · rcases hs.ver_cases ℓ with hv | ⟨c, -, hd, hown, -⟩
    · exact hv
    · simp [ho hown] at hd

theorem tx_eq (hne : u ≠ t) : s'.tx u = s.tx u := by
  rcases hm with rfl | hs
  · rfl
  · exact hs.tx_of_ne hne

theorem safe {r : Entry A V} {e : ℕ} (hr : Safe lock s u r e)
    (hlive : u = t → (s'.tx u).done = false) (hv : r.ver ≤ s.clock) (he : e ≤ s.clock) :
    Safe lock s' u r e := by
  rcases hm with rfl | hs
  · exact hr
  · exact hr.step hs hlive hv he

theorem seen (h : Inv lock m₀ s) {a : A} {n : ℕ} {v : V} (hseen : Seen lock m₀ s a n v) :
    Seen lock m₀ s' a n v := by
  rcases hm with rfl | hs
  · exact hseen
  · exact hseen.step h hs

theorem kept (h : Inv lock m₀ s) {r : Entry A V} {e : ℕ} (hk : Kept lock m₀ s u r e)
    (hcv : (s'.tx u).cv = (s.tx u).cv) (he : e ≤ s.clock) : Kept lock m₀ s' u r e := by
  rcases hm with rfl | hs
  · exact hk
  · exact hk.step h hs hcv he

/-- The current committed value of a word changes only when its holder commits. -/
theorem mem_clock_eq (h : Inv lock m₀ s) (a : A)
    (ho : (s.tx t).done = false → s.owner (lock a) ≠ some t ∨ (s'.tx t).done = false) :
    s'.mem m₀ s'.clock a = s.mem m₀ s.clock a := by
  rcases hm with rfl | hs
  · rfl
  · exact hs.mem_clock_eq h a ho

end

end Moves

end VersionLock
