import Mathlib.Algebra.Group.Nat.Defs
import Mathlib.Logic.Function.Basic
import Mathlib.Tactic.Common

/-!
# Blocks of memory

`load m a n` are the `n` cells of the memory `m` from the address `a` on, `store m a bs` is the
memory after the cells from `a` on have been set to `bs`, and `range a n` are the addresses of the
block. Addresses wrap around. A block splits at any place (`load_add`, `store_append`,
`range_add`), and a block that is copied in parts, the first part first, is copied as a whole if
the destination does not start inside the source (`store_load_add`).
-/

namespace Bytes

variable {w : ℕ} {B : Type*}

def range (a : BitVec w) : ℕ → List (BitVec w)
  | 0 => []
  | n + 1 => a :: range (a + 1) n

def load (m : BitVec w → B) (a : BitVec w) : ℕ → List B
  | 0 => []
  | n + 1 => m a :: load m (a + 1) n

def store (m : BitVec w → B) (a : BitVec w) : List B → BitVec w → B
  | [] => m
  | b :: bs => store (Function.update m a b) (a + 1) bs

variable {m m' : BitVec w → B} {a p : BitVec w} {bs cs : List B} {k n : ℕ}

theorem add_one_add (a : BitVec w) (i : ℕ) :
    a + 1 + BitVec.ofNat w i = a + BitVec.ofNat w (i + 1) := by
  have hone : (1 : BitVec w) = BitVec.ofNat w 1 := rfl
  rw [BitVec.add_assoc, hone, ← BitVec.ofNat_add, Nat.add_comm]

theorem mem_range : p ∈ range a n ↔ ∃ i < n, p = a + BitVec.ofNat w i := by
  induction n generalizing a with
  | zero => simp [range]
  | succ n ih =>
      rw [range, List.mem_cons, ih]
      constructor
      · rintro (rfl | ⟨i, hi, rfl⟩)
        · exact ⟨0, Nat.succ_pos n, by simp⟩
        · exact ⟨i + 1, Nat.succ_lt_succ hi, add_one_add a i⟩
      · rintro ⟨i, hi, rfl⟩
        cases i with
        | zero => simp
        | succ i => exact .inr ⟨i, Nat.lt_of_succ_lt_succ hi, (add_one_add a i).symm⟩

theorem range_add : range a (k + n) = range a k ++ range (a + BitVec.ofNat w k) n := by
  induction k generalizing a with
  | zero => simp [range]
  | succ k ih => rw [Nat.succ_add, range, ih, add_one_add, range, List.cons_append]

@[simp] theorem length_load : (load m a n).length = n := by
  induction n generalizing a with
  | zero => rfl
  | succ n ih => rw [load, List.length_cons, ih]

theorem load_add : load m a (k + n) = load m a k ++ load m (a + BitVec.ofNat w k) n := by
  induction k generalizing a with
  | zero => simp [load]
  | succ k ih => rw [Nat.succ_add, load, ih, add_one_add, load, List.cons_append]

theorem load_eq_map (m : BitVec w → B) (a : BitVec w) (n : ℕ) :
    load m a n = (List.range n).map fun i => m (a + BitVec.ofNat w i) := by
  induction n with
  | zero => rfl
  | succ n ih =>
      rw [load_add, ih, List.range_succ, List.map_append]
      rfl

theorem load_congr (h : ∀ p ∈ range a n, m p = m' p) : load m a n = load m' a n := by
  induction n generalizing a with
  | zero => rfl
  | succ n ih =>
      rw [load, load, h a List.mem_cons_self, ih fun p hp => h p (List.mem_cons_of_mem _ hp)]

theorem store_append :
    store m a (bs ++ cs) = store (store m a bs) (a + BitVec.ofNat w bs.length) cs := by
  induction bs generalizing m a with
  | nil => simp [store]
  | cons b bs ih => rw [List.cons_append, store, ih, store, add_one_add, List.length_cons]

theorem store_of_notMem (h : p ∉ range a bs.length) : store m a bs p = m p := by
  induction bs generalizing m a with
  | nil => rfl
  | cons b bs ih =>
      rw [List.length_cons, range, List.mem_cons, not_or] at h
      rw [store, ih h.2, Function.update_of_ne h.1]

theorem store_congr (h : p ∈ range a bs.length ∨ m p = m' p) :
    store m a bs p = store m' a bs p := by
  induction bs generalizing m m' a with
  | nil => exact h.resolve_left List.not_mem_nil
  | cons b bs ih =>
      refine ih ?_
      by_cases hp : p = a
      · subst hp
        exact .inr (by rw [Function.update_self, Function.update_self])
      · rw [Function.update_of_ne hp, Function.update_of_ne hp]
        exact h.imp_left fun hmem => (List.mem_cons.1 hmem).resolve_left hp

theorem store_store (h : bs.length = cs.length) : store (store m a bs) a cs = store m a cs := by
  funext p
  refine store_congr ?_
  by_cases hp : p ∈ range a cs.length
  · exact .inl hp
  · exact .inr (store_of_notMem (h ▸ hp))

theorem store_comm {b : BitVec w} (h : ∀ p ∈ range a bs.length, p ∉ range b cs.length) :
    store (store m a bs) b cs = store (store m b cs) a bs := by
  funext p
  by_cases hp : p ∈ range b cs.length
  · rw [store_of_notMem fun ha => h p ha hp]
    exact store_congr (.inl hp)
  · rw [store_of_notMem hp]
    exact store_congr (.inr (store_of_notMem hp).symm)

/-- What has been stored is there. -/
theorem load_store (h : bs.length ≤ 2 ^ w) : load (store m a bs) a bs.length = bs := by
  induction bs generalizing m a with
  | nil => rfl
  | cons b bs ih =>
      have hout : a ∉ range (a + 1) bs.length := by
        rw [mem_range]
        rintro ⟨i, hi, heq⟩
        rw [add_one_add, BitVec.self_eq_add_right] at heq
        have := congrArg BitVec.toNat heq
        rw [List.length_cons] at h
        rw [BitVec.toNat_ofNat, Nat.mod_eq_of_lt (by omega)] at this
        simp at this
      rw [List.length_cons, load, store, ih (Nat.le_of_succ_le h), store_of_notMem hout,
        Function.update_self]

theorem add_sub_toNat (a : BitVec w) {i : ℕ} (hi : i < 2 ^ w) :
    (a + BitVec.ofNat w i - a).toNat = i := by
  rw [BitVec.add_comm, BitVec.add_sub_cancel, BitVec.toNat_ofNat, Nat.mod_eq_of_lt hi]

/-- The cells after a store, one by one. -/
theorem store_apply (h : bs.length ≤ 2 ^ w) : store m a bs p = bs[(p - a).toNat]?.getD (m p) := by
  by_cases hp : p ∈ range a bs.length
  · obtain ⟨i, hi, rfl⟩ := mem_range.1 hp
    have hload := congrArg (·[i]?) (load_store (m := m) (a := a) h)
    rw [load_eq_map] at hload
    rw [add_sub_toNat a (Nat.lt_of_lt_of_le hi h), ← hload]
    simp [hi]
  · rw [store_of_notMem hp, List.getElem?_eq_none, Option.getD_none]
    by_contra hlt
    refine hp (mem_range.2 ⟨(p - a).toNat, Nat.lt_of_not_le hlt, ?_⟩)
    rw [BitVec.ofNat_toNat, BitVec.setWidth_eq, BitVec.add_comm, BitVec.sub_add_cancel]

/-- Two stores at one address. -/
theorem store_store_drop (hb : bs.length ≤ 2 ^ w) (hc : cs.length ≤ 2 ^ w) :
    store (store m a bs) a cs = store m a (cs ++ bs.drop cs.length) := by
  funext p
  rw [store_apply hc, store_apply hb, store_apply (by simp; omega), List.getElem?_append]
  generalize (p - a).toNat = i
  by_cases hi : i < cs.length
  · simp [hi]
  · simp [hi, Nat.add_sub_cancel' (Nat.le_of_not_lt hi)]

/-- A load from a block whose first cells have been stored. -/
theorem load_store_take (hb : bs.length ≤ 2 ^ w) (hn : n ≤ 2 ^ w) :
    load (store m a bs) a n = bs.take n ++ (load m a n).drop bs.length := by
  refine List.ext_getElem (by simp; omega) fun i hi _ => ?_
  have hi : i < n := by simpa using hi
  simp only [load_eq_map, List.getElem_map, List.getElem_range, store_apply hb,
    add_sub_toNat a (Nat.lt_of_lt_of_le hi hn), List.getElem_append]
  by_cases hi' : i < bs.length
  · simp [hi', Nat.lt_min.2 ⟨hi, hi'⟩]
  · have hmin : min n bs.length = bs.length := by omega
    simp [hi', hmin, Nat.add_sub_cancel' (Nat.le_of_not_lt hi')]

/-- The store of a block that is there already. -/
theorem store_load_self : store m a (load m a n) = m := by
  induction n generalizing a with
  | zero => rfl
  | succ n ih => rw [load, store, Function.update_eq_self, ih]

theorem le_of_mem_range (hp : p ∈ range a n) (h : a.toNat + n ≤ 2 ^ w) :
    a.toNat ≤ p.toNat ∧ p.toNat < a.toNat + n := by
  obtain ⟨i, hi, rfl⟩ := mem_range.1 hp
  rw [BitVec.toNat_add, BitVec.toNat_ofNat, Nat.mod_eq_of_lt (a := i) (by omega),
    Nat.mod_eq_of_lt (by omega)]
  omega

/-- A store to another block. -/
theorem load_store_of_apart (ha : a.toNat + bs.length ≤ 2 ^ w) (hp : p.toNat + n ≤ 2 ^ w)
    (h : p.toNat + n ≤ a.toNat ∨ a.toNat + bs.length ≤ p.toNat) :
    load (store m a bs) p n = load m p n := by
  refine load_congr fun q hq => store_of_notMem fun hmem => ?_
  have hq := le_of_mem_range hq hp
  have hmem := le_of_mem_range hmem ha
  omega

/-- Two blocks with the same cells, after the same store in both of them. -/
theorem load_store_congr {b : BitVec w} (ha : a.toNat + n < 2 ^ w) (hb : b.toNat + n < 2 ^ w)
    (hk : k + bs.length ≤ n) (h : load m a n = load m' b n) :
    load (store m (a + BitVec.ofNat w k) bs) a n =
      load (store m' (b + BitVec.ofNat w k) bs) b n := by
  obtain ⟨r, rfl⟩ := Nat.exists_eq_add_of_le hk
  have hsplit : ∀ (m : BitVec w → B) {a : BitVec w}, a.toNat + (k + bs.length + r) < 2 ^ w →
      load (store m (a + BitVec.ofNat w k) bs) a (k + bs.length + r) =
        load m a k ++ bs ++ load m (a + BitVec.ofNat w (k + bs.length)) r := by
    intro m a ha
    have hat : ∀ i ≤ k + bs.length, (a + BitVec.ofNat w i).toNat = a.toNat + i := by
      intro i hi
      rw [BitVec.toNat_add, BitVec.toNat_ofNat, Nat.mod_eq_of_lt (a := i) (by omega),
        Nat.mod_eq_of_lt (by omega)]
    have hlo := hat k (by omega)
    have hhi := hat (k + bs.length) (Nat.le_refl _)
    rw [load_add, load_add, load_store (by omega), load_store_of_apart (by omega) (by omega)
      (.inl (by omega)), load_store_of_apart (by omega) (by omega) (.inr (by omega))]
  rw [load_add, load_add, load_add (m := m'), load_add (m := m')] at h
  obtain ⟨hleft, hright⟩ := List.append_inj h (by simp)
  rw [hsplit m ha, hsplit m' hb, (List.append_inj hleft (by simp)).1, hright]

/-- The destination of a copy of `n` cells does not start inside the source. -/
def Clear (dst src : BitVec w) (n : ℕ) : Prop := dst = src ∨ n ≤ (dst - src).toNat

variable {dst src : BitVec w}

/-- What is copied later has not been overwritten. -/
theorem Clear.notMem (h : Clear dst src (k + n)) (hn : k + n ≤ 2 ^ w)
    (hp : p ∈ range (src + BitVec.ofNat w k) n) : p ∉ range dst k := by
  rw [mem_range] at hp ⊢
  obtain ⟨j, hj, rfl⟩ := hp
  rintro ⟨i, hi, heq⟩
  have hsub : dst - src = BitVec.ofNat w (k + j - i) := by
    rw [BitVec.sub_eq_iff_eq_add, BitVec.add_comm _ src]
    rw [← BitVec.add_left_inj (BitVec.ofNat w i), ← heq, BitVec.add_assoc, BitVec.add_assoc,
      ← BitVec.ofNat_add, ← BitVec.ofNat_add, Nat.sub_add_cancel (by omega)]
  have hval : (dst - src).toNat = k + j - i := by
    rw [hsub, BitVec.toNat_ofNat, Nat.mod_eq_of_lt (by omega)]
  rcases h with rfl | h
  · rw [BitVec.sub_self, BitVec.toNat_zero] at hval
    omega
  · omega

/-- A copy in two parts. -/
theorem store_load_add (h : Clear dst src (k + n)) (hn : k + n ≤ 2 ^ w) :
    store m dst (load m src (k + n)) =
      store (store m dst (load m src k)) (dst + BitVec.ofNat w k)
        (load (store m dst (load m src k)) (src + BitVec.ofNat w k) n) := by
  rw [load_add, store_append, length_load]
  refine congrArg _ (load_congr fun p hp => ?_)
  rw [store_of_notMem]
  rw [length_load]
  exact h.notMem hn hp

end Bytes
