import Mathlib.Algebra.Order.Group.Nat
import ClangTM.Simulator.TmModel.Basic

/-!
# Lock words of the TM model

What taking and releasing a lock does to the fields of its word, bit by bit.
-/

namespace Simulator.LockWord

theorem getLsbD_one (i : ℕ) : (1 : Word).getLsbD i = decide (i < 1) :=
  getLsbD_lowMask (k := 1) (by decide) i

theorem getLsbD_three (i : ℕ) : (3 : Word).getLsbD i = decide (i < 2) :=
  getLsbD_lowMask (k := 2) (by decide) i

theorem getLsbD_threadMask (i : ℕ) : threadMask.getLsbD i = decide (i < 13) :=
  getLsbD_lowMask (k := 13) (by decide) i

theorem getLsbD_versionMask (i : ℕ) : versionMask.getLsbD i = decide (i < 46) :=
  getLsbD_lowMask (k := 46) (by decide) i

theorem and_bne_iff (l : Word) {m : Word} {k : ℕ} (hm : ∀ i, m.getLsbD i = decide (i < k)) :
    (l &&& m != 0) = true ↔ ∃ i < k, l.getLsbD i = true := by
  rw [bne_iff_ne]
  constructor
  · intro h
    by_contra hne
    refine h (BitVec.eq_of_getLsbD_eq fun i hi => ?_)
    simp only [BitVec.getLsbD_and, hm]
    grind
  · rintro ⟨i, hi, hb⟩ h
    have hbit : (l &&& m).getLsbD i = false := by
      rw [h]
      exact BitVec.getLsbD_zero
    rw [BitVec.getLsbD_and, hm, hb, decide_eq_true hi] at hbit
    cases hbit

theorem isLocked_iff (l : Word) : isLocked l = true ↔ ∃ i < 2, l.getLsbD i = true :=
  and_bne_iff l getLsbD_three

theorem isWriteLocked_iff (l : Word) : isWriteLocked l = true ↔ l.getLsbD 0 = true := by
  rw [isWriteLocked, and_bne_iff l getLsbD_one]
  simp

theorem isWriteLocked_of_free {l : Word} (h : isLocked l = false) : isWriteLocked l = false := by
  rw [← Bool.not_eq_true] at h ⊢
  exact fun hw => h ((isLocked_iff l).2 ⟨0, by decide, (isWriteLocked_iff l).1 hw⟩)

theorem getLsbD_lockedBy (l tid : Word) {i : ℕ} (hi : i < 64) :
    (lockedBy l tid).getLsbD i =
      if i < 5 then decide (i < 1) || l.getLsbD i
      else if i < 18 then tid.getLsbD (i - 5) else l.getLsbD i || tid.getLsbD (i - 5) := by
  simp only [lockedBy, BitVec.getLsbD_and, BitVec.getLsbD_or, BitVec.getLsbD_not,
    BitVec.getLsbD_shiftLeft, getLsbD_one, getLsbD_threadMask, lockBits, ownedBits,
    incarnationBits]
  grind

theorem getLsbD_setVersion (l v : Word) {i : ℕ} (hi : i < 64) :
    (setVersion l v).getLsbD i = if i < 18 then l.getLsbD i else v.getLsbD (i - 18) := by
  simp only [setVersion, BitVec.getLsbD_and, BitVec.getLsbD_or, BitVec.getLsbD_not,
    BitVec.getLsbD_shiftLeft, getLsbD_versionMask, metaBits, lockBits, threadBits, ownedBits,
    incarnationBits]
  grind

theorem getLsbD_release (l : Word) {i : ℕ} (hi : i < 64) :
    (l &&& ~~~(3 ||| (threadMask <<< lockBits))).getLsbD i =
      if i < 2 ∨ 5 ≤ i ∧ i < 18 then false else l.getLsbD i := by
  simp only [BitVec.getLsbD_and, BitVec.getLsbD_not, BitVec.getLsbD_or,
    BitVec.getLsbD_shiftLeft, getLsbD_three, getLsbD_threadMask, lockBits, ownedBits,
    incarnationBits]
  grind

theorem getLsbD_version (l : Word) (i : ℕ) :
    (version l).getLsbD i = (decide (i < 46) && l.getLsbD (18 + i)) := by
  simp only [version, BitVec.getLsbD_and, BitVec.getLsbD_ushiftRight, getLsbD_versionMask,
    metaBits, lockBits, threadBits, ownedBits, incarnationBits]
  grind

theorem getLsbD_owner (l : Word) (i : ℕ) :
    (owner l).getLsbD i = (decide (i < 13) && l.getLsbD (5 + i)) := by
  simp only [owner, BitVec.getLsbD_and, BitVec.getLsbD_ushiftRight, getLsbD_threadMask,
    lockBits, ownedBits, incarnationBits]
  grind

theorem getLsbD_tidWord (t : Tid) {i : ℕ} (hi : 13 ≤ i) :
    (TmModel.tidWord t).getLsbD i = false := by
  rw [TmModel.tidWord, BitVec.getLsbD_ofNat]
  have : t.val.testBit i = false :=
    Nat.testBit_lt_two_pow (t.isLt.trans_le (Nat.pow_le_pow_right (by decide) hi : 2 ^ 13 ≤ _))
  simp [this]

variable (l v : Word) (t : Tid)

@[simp] theorem isWriteLocked_lockedBy : isWriteLocked (lockedBy l (TmModel.tidWord t)) = true := by
  rw [isWriteLocked_iff, getLsbD_lockedBy _ _ (by decide)]
  simp

@[simp] theorem isLocked_lockedBy : isLocked (lockedBy l (TmModel.tidWord t)) = true := by
  rw [isLocked_iff]
  exact ⟨0, by decide, (isWriteLocked_iff _).1 (isWriteLocked_lockedBy l t)⟩

@[simp] theorem owner_lockedBy :
    owner (lockedBy l (TmModel.tidWord t)) = TmModel.tidWord t := by
  refine BitVec.eq_of_getLsbD_eq fun i hi => ?_
  have hhigh := fun h => getLsbD_tidWord t (i := i) h
  rw [getLsbD_owner]
  by_cases h : i < 13
  · rw [getLsbD_lockedBy _ _ (by omega)]
    have : 5 + i - 5 = i := by omega
    simp [h, this, show ¬5 + i < 5 by omega, show 5 + i < 18 by omega]
  · simp [h, hhigh (by omega)]

@[simp] theorem version_lockedBy : version (lockedBy l (TmModel.tidWord t)) = version l := by
  refine BitVec.eq_of_getLsbD_eq fun i hi => ?_
  rw [getLsbD_version, getLsbD_version]
  by_cases h : i < 46
  · rw [getLsbD_lockedBy _ _ (by omega)]
    simp [h, show ¬18 + i < 5 by omega, getLsbD_tidWord t (show 13 ≤ 18 + i - 5 by omega)]
  · simp [h]

@[simp] theorem owner_setVersion : owner (setVersion l v) = owner l := by
  refine BitVec.eq_of_getLsbD_eq fun i hi => ?_
  rw [getLsbD_owner, getLsbD_owner]
  by_cases h : i < 13
  · rw [getLsbD_setVersion _ _ (by omega), if_pos (by omega)]
  · simp [h]

@[simp] theorem version_setVersion : version (setVersion l v) = v &&& versionMask := by
  refine BitVec.eq_of_getLsbD_eq fun i hi => ?_
  rw [getLsbD_version, BitVec.getLsbD_and, getLsbD_versionMask]
  by_cases h : i < 46
  · rw [getLsbD_setVersion _ _ (by omega), if_neg (by omega), Nat.add_sub_cancel_left]
    simp [h]
  · simp [h]

theorem unlockOwner_of_owner {l tid : Word} (h : owner l = tid) :
    isLocked (unlockOwner l tid) = false ∧ version (unlockOwner l tid) = version l := by
  have hword : unlockOwner l tid = l &&& ~~~(3 ||| (threadMask <<< lockBits)) := by
    rw [unlockOwner, h, bne_self_eq_false]
    rfl
  rw [hword]
  constructor
  · rw [← Bool.not_eq_true, isLocked_iff]
    rintro ⟨i, hi, hb⟩
    rw [getLsbD_release _ (by omega), if_pos (.inl hi)] at hb
    cases hb
  · refine BitVec.eq_of_getLsbD_eq fun i hi => ?_
    rw [getLsbD_version, getLsbD_version]
    by_cases hi : i < 46
    · rw [getLsbD_release _ (by omega), if_neg (by omega)]
    · simp [hi]

theorem unlockOwner_of_free {l : Word} (tid : Word) (h : isLocked l = false) :
    isLocked (unlockOwner l tid) = false ∧ version (unlockOwner l tid) = version l := by
  by_cases ho : owner l = tid
  · exact unlockOwner_of_owner ho
  · have hword : unlockOwner l tid = l := if_pos (by simpa using ho)
    rw [hword]
    exact ⟨h, rfl⟩

theorem toNat_versionMask : versionMask.toNat = 2 ^ 46 - 1 := by
  decide

theorem toNat_and_versionMask : (v &&& versionMask).toNat = v.toNat % 2 ^ 46 := by
  rw [BitVec.toNat_and, toNat_versionMask, Nat.and_two_pow_sub_one_eq_mod]

end Simulator.LockWord
