import Mathlib.Logic.Function.Basic
import ClangTM.Memory

/-!
# Memory as the Rust backends see it

The Rust backends take raw addresses and access 1, 2, 4 or 8 bytes at them, in the byte
order of a little-endian machine. The locks of a backend depend on the address of an access
only, so that a model can be written over any `Layout` of accesses: cells that never
overlap, or typed accesses to one memory of bytes.
-/

namespace Rust

abbrev Addr := BitVec 64

inductive Width
  | w8
  | w16
  | w32
  | w64
deriving DecidableEq

def Width.bytes : Width → ℕ
  | .w8 => 1
  | .w16 => 2
  | .w32 => 4
  | .w64 => 8

def loadBytes (m : Addr → BitVec 8) (a : Addr) : ℕ → Word
  | 0 => 0
  | n + 1 => (m a).setWidth 64 ||| loadBytes m (a + 1) n <<< 8

def storeBytes (m : Addr → BitVec 8) (a : Addr) (v : Word) : ℕ → Addr → BitVec 8
  | 0 => m
  | n + 1 => storeBytes (Function.update m a (v.setWidth 8)) (a + 1) (v >>> 8) n

/-- The number in the low `n` bytes of a word: what is left of it in a type of that size. -/
def lowBytes (v : Word) : ℕ → Word
  | 0 => 0
  | n + 1 => (v.setWidth 8).setWidth 64 ||| lowBytes (v >>> 8) n <<< 8

structure Access where
  addr : Addr
  width : Width
deriving DecidableEq

/-- The value that an access of this width passes on. -/
def Width.low (w : Width) (v : Word) : Word := lowBytes v w.bytes

def Access.Apart (k k' : Access) : Prop :=
  ∀ i < k.width.bytes, ∀ j < k'.width.bytes,
    k.addr + BitVec.ofNat 64 i ≠ k'.addr + BitVec.ofNat 64 j

/-- How the accesses `K` of a backend reach a memory `M`. -/
class Layout (K : Type) (M : outParam Type) where
  addr : K → Addr
  load : M → K → Word
  store : M → K → Word → M

/-- Cells that do not overlap, each of them accessed with one width only. -/
instance : Layout Addr (Addr → Word) where
  addr a := a
  load m a := m a
  store m a v := Function.update m a v

/-- Typed accesses to bytes. -/
instance : Layout Access (Addr → BitVec 8) where
  addr := Access.addr
  load m k := loadBytes m k.addr k.width.bytes
  store m k v := storeBytes m k.addr v k.width.bytes

section Bytes

theorem add_ofNat_succ (a : Addr) (i : ℕ) :
    a + BitVec.ofNat 64 (i + 1) = a + 1 + BitVec.ofNat 64 i := by
  rw [Nat.add_comm, BitVec.ofNat_add, BitVec.add_assoc]
  rfl

theorem loadBytes_congr {m m' : Addr → BitVec 8} {n : ℕ} {a : Addr}
    (h : ∀ i < n, m (a + BitVec.ofNat 64 i) = m' (a + BitVec.ofNat 64 i)) :
    loadBytes m a n = loadBytes m' a n := by
  induction n generalizing a with
  | zero => rfl
  | succ n ih =>
      have hfirst : m a = m' a := by simpa using h 0 (Nat.succ_pos n)
      rw [loadBytes, loadBytes, hfirst, ih fun i hi => ?_]
      have hnext := h (i + 1) (by omega)
      rwa [add_ofNat_succ] at hnext

theorem storeBytes_of_ne {m : Addr → BitVec 8} {n : ℕ} {a b : Addr} {v : Word}
    (h : ∀ i < n, b ≠ a + BitVec.ofNat 64 i) : storeBytes m a v n b = m b := by
  induction n generalizing m a v with
  | zero => rfl
  | succ n ih =>
      have hfirst : b ≠ a := by simpa using h 0 (Nat.succ_pos n)
      rw [storeBytes, ih fun i hi => ?_, Function.update_of_ne hfirst]
      have hnext := h (i + 1) (by omega)
      rwa [add_ofNat_succ] at hnext

theorem loadBytes_storeBytes {m : Addr → BitVec 8} {n : ℕ} (hn : n ≤ 8) {a : Addr} {v : Word} :
    loadBytes (storeBytes m a v n) a n = lowBytes v n := by
  induction n generalizing m a v with
  | zero => rfl
  | succ n ih =>
      rw [storeBytes, loadBytes, lowBytes, ih (by omega), storeBytes_of_ne fun i hi => ?_,
        Function.update_self]
      intro heq
      have hnat := congrArg BitVec.toNat heq
      have hone : (1 : Addr).toNat = 1 := rfl
      rw [BitVec.toNat_add, BitVec.toNat_add, BitVec.toNat_ofNat] at hnat
      omega

theorem Width.bytes_le (w : Width) : w.bytes ≤ 8 := by
  cases w <;> decide

theorem getLsbD_lowBytes (v : Word) {n : ℕ} (hn : n ≤ 8) (i : ℕ) :
    (lowBytes v n).getLsbD i = (v.getLsbD i && decide (i < 8 * n)) := by
  induction n generalizing v i with
  | zero => simp [lowBytes]
  | succ n ih =>
      rw [lowBytes, BitVec.getLsbD_or, BitVec.getLsbD_shiftLeft, ih (v >>> 8) (by omega)]
      by_cases hi : i < 8
      · simp [hi, show i < 64 by omega, show i < 8 * (n + 1) by omega]
      · have hsub : 8 + (i - 8) = i := by omega
        by_cases hi' : i < 64
        · simp [hi, hi', hsub, show i - 8 < 8 * n ↔ i < 8 * (n + 1) by omega]
        · simp [hi, hi', BitVec.getLsbD_of_ge _ i (Nat.not_lt.1 hi')]

theorem getLsbD_loadBytes_of_ge (m : Addr → BitVec 8) {n : ℕ} (a : Addr) {i : ℕ}
    (hi : 8 * n ≤ i) : (loadBytes m a n).getLsbD i = false := by
  induction n generalizing a i with
  | zero => simp [loadBytes]
  | succ n ih =>
      rw [loadBytes, BitVec.getLsbD_or, BitVec.getLsbD_shiftLeft, ih _ (by omega)]
      simp [BitVec.getLsbD_of_ge (m a) i (by omega)]

theorem lowBytes_loadBytes (m : Addr → BitVec 8) {n : ℕ} (hn : n ≤ 8) (a : Addr) :
    lowBytes (loadBytes m a n) n = loadBytes m a n := by
  refine BitVec.eq_of_getLsbD_eq fun i _ => ?_
  rw [getLsbD_lowBytes _ hn]
  by_cases hi : i < 8 * n
  · simp [hi]
  · simp [hi, getLsbD_loadBytes_of_ge m a (Nat.not_lt.1 hi)]

end Bytes

def Access.load (m : Addr → BitVec 8) (k : Access) : Word := loadBytes m k.addr k.width.bytes

def Access.store (m : Addr → BitVec 8) (k : Access) (v : Word) : Addr → BitVec 8 :=
  storeBytes m k.addr v k.width.bytes

theorem Access.load_store_self (m : Addr → BitVec 8) (k : Access) (v : Word) :
    k.load (k.store m v) = k.width.low v :=
  loadBytes_storeBytes k.width.bytes_le

theorem Access.load_store_of_apart {k k' : Access} (h : k.Apart k') (m : Addr → BitVec 8)
    (v : Word) : k.load (k'.store m v) = k.load m :=
  loadBytes_congr fun i hi => storeBytes_of_ne fun j hj => h i hi j hj

theorem Access.low_load (m : Addr → BitVec 8) (k : Access) :
    k.width.low (k.load m) = k.load m :=
  lowBytes_loadBytes m k.width.bytes_le k.addr

end Rust
