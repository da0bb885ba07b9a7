import ClangTM.Rust.Memory

/-!
# The lock words of the Rust backends

The table that `tl2` and `tinystm` share in layout: `2 ^ 20` words, found by a
multiplicative hash of an address. The low byte of a word says whether it is locked, the
other 56 bits are a version.
-/

namespace Rust

def lockMask : Word := 0xFF

def versionShift : ℕ := 8

def tableBits : ℕ := 20

abbrev LockIdx := BitVec 20

instance : LawfulBEq LockIdx := inferInstance

def lockIndex (a : Addr) : LockIdx :=
  ((a * 0x9E3779B97F4A7C15) >>> (64 - tableBits)).setWidth 20

def isLocked (w : Word) : Bool := w &&& lockMask != 0

def version (w : Word) : Word := (w &&& ~~~lockMask) >>> versionShift

def locked (w : Word) : Word := w ||| 1

def unlockedTo (ver : Word) : Word := ver <<< versionShift

theorem toNat_and_lockMask (w : Word) : (w &&& lockMask).toNat = w.toNat % 2 ^ 8 := by
  rw [BitVec.toNat_and]
  exact Nat.and_two_pow_sub_one_eq_mod _ 8

theorem isLocked_iff (w : Word) : isLocked w = true ↔ w.toNat % 2 ^ 8 ≠ 0 := by
  rw [isLocked, bne_iff_ne, ne_eq, ← BitVec.toNat_inj, toNat_and_lockMask]
  rfl

theorem toNat_version (w : Word) : (version w).toNat = w.toNat / 2 ^ 8 := by
  have hbits : version w = w >>> 8 := by
    refine BitVec.eq_of_getLsbD_eq fun i hi => ?_
    have hmask : lockMask.getLsbD (8 + i) = false :=
      (getLsbD_lowMask (k := 8) (by decide) (8 + i)).trans (decide_eq_false (by omega))
    rw [version, versionShift, BitVec.getLsbD_ushiftRight, BitVec.getLsbD_ushiftRight,
      BitVec.getLsbD_and, BitVec.getLsbD_not, hmask]
    by_cases h : 8 + i < 64
    · simp [h]
    · rw [BitVec.getLsbD_of_ge _ _ (Nat.not_lt.1 h), Bool.false_and]
  rw [hbits, BitVec.toNat_ushiftRight, Nat.shiftRight_eq_div_pow]

theorem toNat_unlockedTo (ver : Word) : (unlockedTo ver).toNat = ver.toNat % 2 ^ 56 * 2 ^ 8 := by
  rw [unlockedTo, versionShift, BitVec.toNat_shiftLeft, Nat.shiftLeft_eq]
  omega

@[simp] theorem isLocked_unlockedTo (ver : Word) : isLocked (unlockedTo ver) = false := by
  rw [Bool.eq_false_iff, ne_eq, isLocked_iff, toNat_unlockedTo]
  omega

@[simp] theorem toNat_version_unlockedTo (ver : Word) :
    (version (unlockedTo ver)).toNat = ver.toNat % 2 ^ 56 := by
  rw [toNat_version, toNat_unlockedTo]
  omega

@[simp] theorem isLocked_locked (w : Word) : isLocked (locked w) = true := by
  rw [isLocked, bne_iff_ne, ne_eq]
  intro h
  have hbit := congrArg (BitVec.getLsbD · 0) h
  simp [locked, lockMask] at hbit

@[simp] theorem version_locked (w : Word) : version (locked w) = version w := by
  refine BitVec.eq_of_getLsbD_eq fun i hi => ?_
  simp [version, versionShift, locked]

end Rust
