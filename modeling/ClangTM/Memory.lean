import Mathlib.Algebra.Group.Nat.Defs
import Mathlib.Tactic.Common

/-!
# Words, addresses and calls

The memory that transactions work on, cut into 8-byte words. An address is the
address of one such word: aligned to 8 bytes, and not below `0x100000`, which
the backends treat as null. Stack addresses and accesses narrower than a word
are not modelled.

`TxCall` is what a thread can do next. A transaction body is any sequence of
calls, so in a body a thread can make any call; inside a function of a backend it
goes on with that function.
-/

abbrev Word := BitVec 64

section Bytes

theorem getLsbD_lowMask {k : ℕ} (hk : k ≤ 64) (i : ℕ) :
    (BitVec.ofNat 64 (2 ^ k - 1)).getLsbD i = decide (i < k) := by
  rw [BitVec.getLsbD_ofNat, Nat.testBit_two_pow_sub_one]
  by_cases h : i < k <;> simp [h]
  omega

def byteOf (w : Word) (i : Fin 8) : BitVec 8 := (w >>> (8 * i.val)).setWidth 8

def setByte (m : Word) (i : Fin 8) (b : BitVec 8) : Word :=
  m &&& ~~~((0xff : Word) <<< (8 * i.val)) ||| b.setWidth 64 <<< (8 * i.val)

def SameBytes (n : ℕ) (m w : Word) : Prop := ∀ j < 8 * n, m.getLsbD j = w.getLsbD j

theorem getLsbD_setByte_byteOf (m w : Word) (i : Fin 8) {j : ℕ} (hj : j < 64) :
    (setByte m i (byteOf w i)).getLsbD j =
      if 8 * i.val ≤ j ∧ j < 8 * i.val + 8 then w.getLsbD j else m.getLsbD j := by
  have hmask : ∀ k, (0xff : Word).getLsbD k = decide (k < 8) :=
    getLsbD_lowMask (k := 8) (by decide)
  simp only [setByte, byteOf, BitVec.getLsbD_or, BitVec.getLsbD_and, BitVec.getLsbD_not,
    BitVec.getLsbD_shiftLeft, BitVec.getLsbD_setWidth, BitVec.getLsbD_ushiftRight, hmask, hj]
  by_cases hlo : j < 8 * i.val
  · simp [hlo, Nat.not_le.2 hlo]
  · by_cases hhi : j < 8 * i.val + 8
    · have hk : j - 8 * i.val < 8 := by omega
      have hsum : 8 * i.val + (j - 8 * i.val) = j := by omega
      simp [hlo, hhi, hk, hsum, Nat.not_lt.1 hlo, show j - 8 * i.val < 64 by omega]
    · simp [hlo, hhi, show ¬ j - 8 * i.val < 8 by omega]

theorem SameBytes.zero (m w : Word) : SameBytes 0 m w := by
  simp [SameBytes]

theorem SameBytes.setByte {m w : Word} {i : Fin 8} (h : SameBytes i.val m w) :
    SameBytes (i.val + 1) (setByte m i (byteOf w i)) w := by
  intro j hj
  rw [getLsbD_setByte_byteOf m w i (by omega)]
  split
  · rfl
  · exact h j (by omega)

theorem SameBytes.eq {m w : Word} (h : SameBytes 8 m w) : m = w :=
  BitVec.eq_of_getLsbD_eq h

theorem setByte_byteOf_self (w : Word) (i : Fin 8) : setByte w i (byteOf w i) = w := by
  refine BitVec.eq_of_getLsbD_eq fun j hj => ?_
  rw [getLsbD_setByte_byteOf w w i hj, ite_self]

end Bytes

structure WordAddr where
  val : ℕ
  aligned : val % 8 = 0
  notLow : 0x100000 ≤ val
  lt : val < 2 ^ 64
deriving DecidableEq

namespace WordAddr

/-- The `i`-th word above `0x100000`. -/
def ofIndex (i : Fin (2 ^ 32)) : WordAddr where
  val := 0x100000 + 8 * i
  aligned := by omega
  notLow := by omega
  lt := by omega

end WordAddr

def firstWord : WordAddr := .ofIndex 0

def secondWord : WordAddr := .ofIndex 1

def thirdWord : WordAddr := .ofIndex 2

def farWord : WordAddr := .ofIndex 16384

/-- What a thread does: a call, or the next access of the function it is in. -/
inductive TxCall
  | begin
  | read (a : WordAddr)
  | write (a : WordAddr) (v : Word)
  | commit
  | abort
  | tau
deriving DecidableEq

structure CellAddr where
  val : BitVec 64
  aligned : val.toNat % 8 = 0
deriving DecidableEq

/-- Two cells. -/
def firstCell : CellAddr := ⟨8, by decide⟩

@[inherit_doc firstCell]
def secondCell : CellAddr := ⟨16, by decide⟩

/-- What a thread does in a backend with weak compare-and-swaps: a call, the next access of
the function it is in, or, for `weak`, that access with a compare-and-swap that fails
although the values agree. -/
inductive TmCall (A : Type)
  | begin
  | read (a : A)
  | write (a : A) (v : Word)
  | commit
  | abort
  | tau
  | weak
deriving DecidableEq
