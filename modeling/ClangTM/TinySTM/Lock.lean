import Mathlib.Algebra.Order.Group.Nat
import ClangTM.Memory

/-!
# Lock words

A lock of TinySTM is one 64-bit word: two bits that say whether it is owned, three
bits of incarnation, thirteen bits with the id of the owner and, above them, the
version of the last commit. The functions below build lock words and take them
apart with the masks and shifts of `class Lock`. The lemmas say what each of them
does to the four fields; they are proved bit by bit, from the bits of the masks.
-/

namespace TinySTM

def ownedBits : ℕ := 2

def incarnationBits : ℕ := 3

def lockBits : ℕ := ownedBits + incarnationBits

def threadBits : ℕ := 13

def maxThreads : ℕ := 1 <<< threadBits

def metaBits : ℕ := lockBits + threadBits

def writeMask : Word := 1

def ownedMask : Word := 3

def incarnationMask : Word := 7

def threadMask : Word := BitVec.ofNat 64 (maxThreads - 1)

def versionMask : Word :=
  (~~~ownedMask &&& ~~~(incarnationMask <<< ownedBits) &&&
    ~~~(threadMask <<< lockBits)) >>> metaBits

def versionMax : ℕ := versionMask.toNat

theorem versionMax_eq : versionMax = 2 ^ 46 - 1 := by
  decide

/-- The id of a transaction. `thr_counter` hands them out from 1 on, and `try_lock`
asserts that they fit the owner field of a lock word. -/
structure TxId where
  val : ℕ
  pos : 0 < val
  lt : val < maxThreads
deriving DecidableEq

def isOwned (l : Word) : Bool := l &&& ownedMask != 0

def ownerOf (l : Word) : ℕ := ((l &&& (threadMask <<< lockBits)) >>> lockBits).toNat

def versionOf (l : Word) : ℕ := ((l &&& (versionMask <<< metaBits)) >>> metaBits).toNat

def isLockedBy (l : Word) (t : TxId) : Bool := isOwned l && ownerOf l == t.val

def lockedBy (l : Word) (t : TxId) : Word :=
  (l &&& (versionMask <<< metaBits)) |||
    (((BitVec.ofNat 64 t.val &&& threadMask) <<< lockBits) ||| writeMask) |||
    (l &&& (incarnationMask <<< ownedBits))

def unlocked (l : Word) : Word := l &&& (~~~ownedMask &&& ~~~(threadMask <<< lockBits))

def withVersion (v : ℕ) : Word := (BitVec.ofNat 64 v &&& versionMask) <<< metaBits

section Bits

theorem getLsbD_writeMask (i : ℕ) : writeMask.getLsbD i = decide (i < 1) :=
  getLsbD_lowMask (k := 1) (by decide) i

theorem getLsbD_ownedMask (i : ℕ) : ownedMask.getLsbD i = decide (i < 2) :=
  getLsbD_lowMask (k := 2) (by decide) i

theorem getLsbD_incarnationMask (i : ℕ) : incarnationMask.getLsbD i = decide (i < 3) :=
  getLsbD_lowMask (k := 3) (by decide) i

theorem getLsbD_threadMask (i : ℕ) : threadMask.getLsbD i = decide (i < 13) :=
  getLsbD_lowMask (k := 13) (by decide) i

theorem versionMask_eq : versionMask = BitVec.ofNat 64 (2 ^ 46 - 1) := by
  decide

theorem getLsbD_versionMask (i : ℕ) : versionMask.getLsbD i = decide (i < 46) := by
  rw [versionMask_eq, getLsbD_lowMask (by decide)]

theorem getLsbD_lockedBy (l : Word) (t : TxId) {i : ℕ} (hi : i < 64) :
    (lockedBy l t).getLsbD i =
      if i = 0 then true else if i = 1 then false
      else if 5 ≤ i ∧ i < 18 then t.val.testBit (i - 5) else l.getLsbD i := by
  simp only [lockedBy, BitVec.getLsbD_and, BitVec.getLsbD_or, BitVec.getLsbD_shiftLeft,
    BitVec.getLsbD_ofNat, getLsbD_writeMask, getLsbD_incarnationMask, getLsbD_threadMask,
    getLsbD_versionMask, metaBits, lockBits, threadBits, ownedBits, incarnationBits]
  grind

theorem getLsbD_unlocked (l : Word) {i : ℕ} (hi : i < 64) :
    (unlocked l).getLsbD i =
      if i < 2 ∨ 5 ≤ i ∧ i < 18 then false else l.getLsbD i := by
  simp only [unlocked, BitVec.getLsbD_and, BitVec.getLsbD_not, BitVec.getLsbD_shiftLeft,
    getLsbD_ownedMask, getLsbD_threadMask, lockBits, ownedBits, incarnationBits]
  grind

theorem getLsbD_withVersion (v : ℕ) {i : ℕ} (hi : i < 64) :
    (withVersion v).getLsbD i = if i < 18 then false else v.testBit (i - 18) := by
  simp only [withVersion, BitVec.getLsbD_and, BitVec.getLsbD_shiftLeft, BitVec.getLsbD_ofNat,
    getLsbD_versionMask, metaBits, lockBits, threadBits, ownedBits, incarnationBits]
  grind

theorem versionOf_congr {l l' : Word}
    (h : ∀ i, 18 ≤ i → i < 64 → l.getLsbD i = l'.getLsbD i) : versionOf l = versionOf l' := by
  unfold versionOf
  congr 1
  refine BitVec.eq_of_getLsbD_eq fun i hi => ?_
  simp only [BitVec.getLsbD_ushiftRight, BitVec.getLsbD_and, BitVec.getLsbD_shiftLeft,
    getLsbD_versionMask, metaBits, lockBits, threadBits, ownedBits, incarnationBits]
  grind

theorem ownerOf_congr {l l' : Word}
    (h : ∀ i, 5 ≤ i → i < 18 → l.getLsbD i = l'.getLsbD i) : ownerOf l = ownerOf l' := by
  unfold ownerOf
  congr 1
  refine BitVec.eq_of_getLsbD_eq fun i hi => ?_
  simp only [BitVec.getLsbD_ushiftRight, BitVec.getLsbD_and, BitVec.getLsbD_shiftLeft,
    getLsbD_threadMask, lockBits, ownedBits, incarnationBits]
  grind

theorem isOwned_iff (l : Word) : isOwned l = true ↔ ∃ i < 2, l.getLsbD i = true := by
  rw [isOwned, bne_iff_ne]
  constructor
  · intro h
    by_contra hne
    refine h (BitVec.eq_of_getLsbD_eq fun i hi => ?_)
    simp only [BitVec.getLsbD_and, getLsbD_ownedMask]
    grind
  · rintro ⟨i, hi, hb⟩ h
    have := congrArg (BitVec.getLsbD · i) h
    simp [BitVec.getLsbD_and, getLsbD_ownedMask, hi, hb] at this

theorem testBit_of_lt {n k i : ℕ} (hn : n < 2 ^ k) (hi : k ≤ i) : n.testBit i = false :=
  Nat.testBit_lt_two_pow (hn.trans_le (Nat.pow_le_pow_right (by decide) hi))

end Bits

@[simp] theorem isOwned_lockedBy (l : Word) (t : TxId) : isOwned (lockedBy l t) = true := by
  rw [isOwned_iff]
  exact ⟨0, by decide, by rw [getLsbD_lockedBy l t (by decide), if_pos rfl]⟩

@[simp] theorem ownerOf_lockedBy (l : Word) (t : TxId) : ownerOf (lockedBy l t) = t.val := by
  have hword : (lockedBy l t &&& (threadMask <<< lockBits)) >>> lockBits =
      BitVec.ofNat 64 t.val := by
    refine BitVec.eq_of_getLsbD_eq fun i hi => ?_
    have hbit : 13 ≤ i → t.val.testBit i = false := testBit_of_lt t.lt
    have hlocked : i < 13 → (lockedBy l t).getLsbD (5 + i) = t.val.testBit i := by
      intro h
      rw [getLsbD_lockedBy l t (by omega)]
      grind
    simp only [BitVec.getLsbD_ushiftRight, BitVec.getLsbD_and, BitVec.getLsbD_shiftLeft,
      BitVec.getLsbD_ofNat, getLsbD_threadMask, lockBits, ownedBits, incarnationBits]
    grind
  rw [ownerOf, hword, BitVec.toNat_ofNat, Nat.mod_eq_of_lt]
  exact t.lt.trans (by decide)

@[simp] theorem versionOf_lockedBy (l : Word) (t : TxId) :
    versionOf (lockedBy l t) = versionOf l :=
  versionOf_congr fun i hlo hhi => by
    rw [getLsbD_lockedBy l t hhi]
    grind

@[simp] theorem isOwned_zero : isOwned 0#64 = false := by
  decide

@[simp] theorem ownerOf_zero : ownerOf 0#64 = 0 := by
  decide

@[simp] theorem versionOf_zero : versionOf 0#64 = 0 := by
  decide

theorem isOwned_eq_false {l : Word} (h : ∀ i < 2, l.getLsbD i = false) : isOwned l = false := by
  rw [← Bool.not_eq_true, isOwned_iff]
  rintro ⟨i, hi, hb⟩
  simp [h i hi] at hb

theorem ownerOf_eq_zero {l : Word} (h : ∀ i, 5 ≤ i → i < 18 → l.getLsbD i = false) :
    ownerOf l = 0 := by
  rw [← ownerOf_zero]
  exact ownerOf_congr fun i hlo hhi => by simp [h i hlo hhi]

@[simp] theorem isOwned_unlocked (l : Word) : isOwned (unlocked l) = false :=
  isOwned_eq_false fun i hi => by simp [getLsbD_unlocked l (show i < 64 by omega), hi]

@[simp] theorem ownerOf_unlocked (l : Word) : ownerOf (unlocked l) = 0 :=
  ownerOf_eq_zero fun i hlo hhi => by
    simp [getLsbD_unlocked l (show i < 64 by omega), hlo, hhi]

@[simp] theorem versionOf_unlocked (l : Word) : versionOf (unlocked l) = versionOf l :=
  versionOf_congr fun i hlo hhi => by
    rw [getLsbD_unlocked l hhi]
    grind

@[simp] theorem isOwned_withVersion (v : ℕ) : isOwned (withVersion v) = false :=
  isOwned_eq_false fun i hi => by
    rw [getLsbD_withVersion v (by omega), if_pos (by omega)]

@[simp] theorem ownerOf_withVersion (v : ℕ) : ownerOf (withVersion v) = 0 :=
  ownerOf_eq_zero fun i _ hhi => by rw [getLsbD_withVersion v (by omega), if_pos hhi]

theorem versionOf_withVersion {v : ℕ} (hv : v < 2 ^ 46) : versionOf (withVersion v) = v := by
  have hword : (withVersion v &&& (versionMask <<< metaBits)) >>> metaBits =
      BitVec.ofNat 64 v := by
    refine BitVec.eq_of_getLsbD_eq fun i hi => ?_
    have hbit : 46 ≤ i → v.testBit i = false := testBit_of_lt hv
    have hstored : i < 46 → (withVersion v).getLsbD (18 + i) = v.testBit i := by
      intro h
      rw [getLsbD_withVersion v (by omega)]
      grind
    simp only [BitVec.getLsbD_ushiftRight, BitVec.getLsbD_and, BitVec.getLsbD_shiftLeft,
      BitVec.getLsbD_ofNat, getLsbD_versionMask, metaBits, lockBits, threadBits, ownedBits,
      incarnationBits]
    grind
  rw [versionOf, hword, BitVec.toNat_ofNat, Nat.mod_eq_of_lt]
  exact hv.trans (by decide)

end TinySTM
