import ClangTM.Rust.Memory
import ClangTM.TypedMemory

/-!
# Typed values

What a Rust backend keeps of a write: a value of a primitive type, as the low bytes of a word, or
the bytes of a raw write. It is read back as a value of a primitive type, which has to be the one
it was written with.
-/

namespace Rust

inductive TypedValue
  | scalar (w : Width) (v : Word)
  | bytes (b : List (BitVec 8))

/-- The number that is written with these bytes, the first one the least significant. -/
def leWord (bs : List (BitVec 8)) : Word := bs.foldr (fun b v => b.setWidth 64 ||| v <<< 8) 0

namespace TypedValue

def cells : TypedValue → List (BitVec 8)
  | scalar w v => wordBytes v w.bytes
  | bytes b => b

/-- `Primitive::from_typed`; there is no value where it panics. -/
def fromTyped (w : Width) : TypedValue → Option (List (BitVec 8))
  | scalar w' v => if w' = w then some (wordBytes v w.bytes) else none
  | bytes _ => none

end TypedValue

/-- A write of a value of a primitive type, or of raw bytes. -/
abbrev Write := Addr × TypedValue

/-- The memory after the writes have been made directly. -/
def performed (m : Addr → BitVec 8) (ws : List Write) : Addr → BitVec 8 :=
  ws.foldl (fun m w => Bytes.store m w.1 w.2.cells) m

theorem byte_leWord (bs : List (BitVec 8)) {i : ℕ} (hi : i < 8) :
    (leWord bs >>> (8 * i)).setWidth 8 = bs[i]?.getD 0 := by
  induction bs generalizing i with
  | nil => simp [leWord]
  | cons b bs ih =>
      refine BitVec.eq_of_getLsbD_eq fun j hj => ?_
      have hlt : 8 * i + j < 64 := by omega
      rw [leWord, List.foldr_cons]
      simp only [BitVec.getLsbD_setWidth, BitVec.getLsbD_ushiftRight, BitVec.getLsbD_or,
        BitVec.getLsbD_shiftLeft, hlt, hj, decide_true, Bool.true_and]
      cases i with
      | zero => simp [hj]
      | succ i =>
          have hsub : 8 * (i + 1) + j - 8 = 8 * i + j := by omega
          have hbyte := congrArg (·.getLsbD j) (ih (i := i) (by omega))
          simp only [BitVec.getLsbD_setWidth, BitVec.getLsbD_ushiftRight, hj, decide_true,
            Bool.true_and] at hbyte
          have hge : ¬8 * (i + 1) + j < 8 := by omega
          rw [List.getElem?_cons_succ, ← hbyte, hsub, BitVec.getLsbD_of_ge b _ (by omega)]
          simp [leWord, hge]

theorem getElem_wordBytes (v : Word) {n i : ℕ} (h : i < (wordBytes v n).length) :
    (wordBytes v n)[i] = (v >>> (8 * i)).setWidth 8 := by
  simp [wordBytes]

theorem wordBytes_leWord {bs : List (BitVec 8)} (h : bs.length ≤ 8) :
    wordBytes (leWord bs) bs.length = bs := by
  refine List.ext_getElem (by simp) fun i hi hi' => ?_
  rw [getElem_wordBytes, byte_leWord bs (by omega), List.getElem?_eq_getElem hi', Option.getD_some]

theorem take_wordBytes (v : Word) {k n : ℕ} (h : k ≤ n) :
    (wordBytes v n).take k = wordBytes v k := by
  simp only [wordBytes, ← List.map_take, List.take_range, Nat.min_eq_left h]

/-- A word with its first bytes taken from another one. -/
def splice (lo hi : Word) (n : ℕ) : Word := hi &&& ~~~byteMask n ||| lo &&& byteMask n

theorem wordBytes_splice (lo hi : Word) {k n : ℕ} (hk : k ≤ n) (hn : n ≤ 8) :
    wordBytes (splice lo hi k) n = wordBytes lo k ++ (wordBytes hi n).drop k := by
  refine List.ext_getElem (by simp; omega) fun i hi' _ => ?_
  rw [TypedAddr.length_wordBytes] at hi'
  have hbyte := byte_merge hi lo k 0 (i := i) (by omega)
  rw [getElem_wordBytes, List.getElem_append]
  by_cases hik : i < k
  · simpa [hik, splice, getElem_wordBytes] using hbyte
  · simpa [hik, splice, getElem_wordBytes, Nat.add_sub_cancel' (Nat.le_of_not_lt hik)] using hbyte

end Rust
