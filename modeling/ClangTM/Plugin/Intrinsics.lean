import ClangTM.Plugin.View

/-!
# Memory intrinsics in transactions

`instrumentMemoryIntrinsic` replaces `llvm.memcpy`, `llvm.memmove` and `llvm.memset` by a loop over
words and a loop over the bytes that remain, both upwards. The loops do what the intrinsic does
unless `llvm.memmove` copies to a place inside its source, where the loops read what they have
written themselves; and the index of the loops has to be non-negative as a signed number where its
type is narrower than an address.
-/

namespace Plugin

open Bytes

/-- A call of an intrinsic, without destination and length. -/
inductive Intrinsic
  | memcpy (src : Addr)
  | memmove (src : Addr)
  | memset (val : Byte)

namespace Intrinsic

/-- What the intrinsic leaves in memory: all is read before anything is written. -/
def eval (dst : Addr) (n : ℕ) (m : Addr → Byte) : Intrinsic → Addr → Byte
  | .memcpy src | .memmove src => store m dst (load m src n)
  | .memset val => store m dst (.replicate n val)

def sources (n : ℕ) : Intrinsic → List Addr
  | .memcpy src | .memmove src => range src n
  | .memset _ => []

end Intrinsic

section Code

variable {w : ℕ}

/-- A `getelementptr` of bytes: the index is extended with its sign. -/
def gep (p : Addr) (i : BitVec w) : Addr := p + i.signExtend 64

def broadcast (val : Byte) : List Byte :=
  (List.range 8).map fun i =>
    ((val.setWidth 64 * 0x0101010101010101#64) >>> (8 * i)).setWidth 8

def wordBody (k : Intrinsic) (dst : Addr) (i : BitVec w) (v : View) : View :=
  match k with
  | .memcpy src | .memmove src =>
      (v.read (gep src i) 8).write (gep dst i) (load v.mem (gep src i) 8)
  | .memset val => v.write (gep dst i) (broadcast val)

def byteBody (k : Intrinsic) (dst : Addr) (i : BitVec w) (v : View) : View :=
  match k with
  | .memcpy src | .memmove src =>
      (v.read (gep src i) 1).write (gep dst i) (load v.mem (gep src i) 1)
  | .memset val => v.write (gep dst i) [val]

/-- An entry block that compares the index with its end, and the body. -/
def loop (stride last : BitVec w) (body : BitVec w → View → View) :
    ℕ → BitVec w → View → Option View
  | 0, _, _ => none
  | fuel + 1, i, v =>
      if i = last then some v else loop stride last body fuel (i + stride) (body i v)

/-- The code that is emitted for an intrinsic whose length has `w` bits. -/
def instrumentMemoryIntrinsic (k : Intrinsic) (dst : Addr) (len : BitVec w) (fuel : ℕ) (v : View) :
    Option View :=
  let alignedMax := len - len % 8
  (loop 8 alignedMax (wordBody k dst) fuel 0 v).bind
    (loop 1 len (byteBody k dst) fuel alignedMax)

end Code

/-- `memcpy` is called as it may be; `memmove` does not copy to a place inside its source. -/
def Intrinsic.Fine (dst : Addr) (n : ℕ) : Intrinsic → Prop
  | .memcpy src => dst = src ∨ ∀ p ∈ range src n, p ∉ range dst n
  | .memmove src => Clear dst src n
  | .memset _ => True

/-- The length is non-negative in its type, if that is narrower than an address. -/
def Indexable {w : ℕ} (len : BitVec w) : Prop := w = 64 ∨ w ≤ 64 ∧ 2 * len.toNat ≤ 2 ^ w

structure Done (k : Intrinsic) (dst : Addr) (v : View) (n : ℕ) (v' : View) : Prop where
  mem : v'.mem = k.eval dst n v.mem
  touched : ∀ p ∈ v'.touched, p ∈ v.touched ∨ p ∈ range dst n ∨ p ∈ k.sources n

def part (k : Intrinsic) (dst : Addr) (i c : ℕ) (v : View) : View :=
  match k with
  | .memcpy src | .memmove src =>
      (v.read (src + BitVec.ofNat 64 i) c).write (dst + BitVec.ofNat 64 i)
        (load v.mem (src + BitVec.ofNat 64 i) c)
  | .memset val => v.write (dst + BitVec.ofNat 64 i) (.replicate c val)

theorem clear_of_disjoint {dst src : Addr} {n : ℕ} (h : ∀ p ∈ range src n, p ∉ range dst n) :
    Clear dst src n := by
  refine .inr (Nat.le_of_not_lt fun hlt => h dst ?_ ?_)
  · rw [mem_range]
    refine ⟨_, hlt, ?_⟩
    rw [BitVec.ofNat_toNat, BitVec.setWidth_eq, BitVec.add_comm, BitVec.sub_add_cancel]
  · rw [mem_range]
    exact ⟨0, by omega, (BitVec.add_zero dst).symm⟩

section Steps

variable {k : Intrinsic} {dst : Addr} {v v' : View} {n c : ℕ}

theorem Done.copy {src : Addr} (hk : ∀ m mem, k.eval dst m mem = store mem dst (load mem src m))
    (hs : ∀ m, k.sources m = range src m) (h : Done k dst v n v') (hclear : Clear dst src (n + c))
    (hn : n + c ≤ 2 ^ 64) : Done k dst v (n + c) ((v'.read (src + BitVec.ofNat 64 n) c).write
      (dst + BitVec.ofNat 64 n) (load v'.mem (src + BitVec.ofNat 64 n) c)) := by
  refine ⟨?_, fun p hp => ?_⟩
  · rw [hk, store_load_add hclear hn]
    show store v'.mem _ _ = _
    rw [h.mem, hk]
  · simp only [View.write, View.read, List.mem_append, length_load] at hp
    rw [hs, range_add, range_add, List.mem_append, List.mem_append]
    rcases hp with (hp | hp) | hp
    · have := h.touched p hp
      rw [hs] at this
      tauto
    · exact .inr (.inr (.inr hp))
    · exact .inr (.inl (.inr hp))

theorem Done.part (h : Done k dst v n v') (hfine : k.Fine dst (n + c)) (hn : n + c ≤ 2 ^ 64) :
    Done k dst v (n + c) (part k dst n c v') := by
  cases k with
  | memcpy src =>
      refine h.copy (fun _ _ => rfl) (fun _ => rfl) ?_ hn
      rcases hfine with rfl | hfine
      · exact .inl rfl
      · exact clear_of_disjoint hfine
  | memmove src => exact h.copy (fun _ _ => rfl) (fun _ => rfl) hfine hn
  | memset val =>
      refine ⟨?_, fun p hp => ?_⟩
      · show store v'.mem _ _ = store v.mem _ _
        rw [h.mem, ← List.replicate_append_replicate, store_append, List.length_replicate]
        rfl
      · rw [range_add, List.mem_append]
        rcases List.mem_append.1 hp with hp | hp
        · have := h.touched p hp
          tauto
        · rw [List.length_replicate] at hp
          exact .inr (.inl (.inr hp))

theorem Intrinsic.Fine.mono {n' : ℕ} (h : k.Fine dst n) (hle : n' ≤ n) : k.Fine dst n' := by
  have hsub : ∀ a : Addr, ∀ p ∈ range a n', p ∈ range a n := fun a p hp => by
    rw [mem_range] at hp ⊢
    obtain ⟨i, hi, rfl⟩ := hp
    exact ⟨i, by omega, rfl⟩
  cases k with
  | memcpy src => exact h.imp_right fun h p hp hd => h p (hsub _ p hp) (hsub _ p hd)
  | memmove src => exact h.imp_right (Nat.le_trans hle)
  | memset val => trivial

theorem loop_done {w : ℕ} {stride i last : BitVec w} {body : BitVec w → View → View} (j : ℕ)
    (hstride : stride.toNat = c) (hc : 0 < c) (hlast : last.toNat = i.toNat + c * j)
    (hbody : ∀ i : BitVec w, i.toNat < last.toNat → ∀ v, body i v = part k dst i.toNat c v)
    (hfine : k.Fine dst last.toNat) (hn : last.toNat ≤ 2 ^ 64) (h : Done k dst v i.toNat v') :
    ∃ v₁, (∀ extra, loop stride last body (j + 1 + extra) i v' = some v₁) ∧
      Done k dst v last.toNat v₁ := by
  induction j generalizing i v' with
  | zero =>
      obtain rfl : i = last := BitVec.eq_of_toNat_eq (by omega)
      exact ⟨v', fun extra => by rw [Nat.add_comm, loop, if_pos rfl], h⟩
  | succ j ih =>
      rw [Nat.mul_succ] at hlast
      have hnext : (i + stride).toNat = i.toNat + c := by
        rw [BitVec.toNat_add, hstride, Nat.mod_eq_of_lt]
        have := last.isLt
        omega
      have hdone : Done k dst v (i + stride).toNat (body i v') := by
        rw [hbody i (by omega), hnext]
        exact h.part (hfine.mono (by omega)) (by omega)
      obtain ⟨v₁, hloop, hv₁⟩ := ih (by omega) hdone
      refine ⟨v₁, fun extra => ?_, hv₁⟩
      have hne : i ≠ last := fun heq => by
        rw [heq] at hlast
        omega
      rw [Nat.add_right_comm (j + 1), loop, if_neg hne, hloop]

end Steps

theorem gep_eq {w : ℕ} {len i : BitVec w} (hlen : Indexable len) (hi : i.toNat < len.toNat)
    (p : Addr) : gep p i = p + BitVec.ofNat 64 i.toNat := by
  refine congrArg (p + ·) ?_
  rcases hlen with rfl | ⟨hw, hlen⟩
  · rw [BitVec.signExtend_eq, BitVec.ofNat_toNat, BitVec.setWidth_eq]
  · rw [BitVec.signExtend_eq_setWidth_of_msb_false, BitVec.ofNat_toNat]
    rw [BitVec.msb_eq_false_iff_two_mul_lt]
    omega

theorem broadcast_eq : ∀ val : Byte, broadcast val = .replicate 8 val := by
  decide +kernel

end Plugin
