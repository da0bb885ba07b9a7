import ClangTM.Memory

/-!
# Bloom filters

The filter of `tm_bloom_filter.hpp`: an array of 64-bit words and two hashes of a key. Each
hash picks a word and a bit of it; a key is marked when both of its bits are set. A bit that is
set stays set until the filter is cleared, so there are no false negatives: two filters that
both mark a hash have a word in which they share a bit.
-/

def bloomMix64 (z : Word) : Word :=
  let z := (z ^^^ (z >>> 30)) * 0xbf58476d1ce4e5b9
  let z := (z ^^^ (z >>> 27)) * 0x94d049bb133111eb
  z ^^^ (z >>> 31)

/-- `BloomFilter<WORDS>`: the words below `WORDS`. -/
abbrev BloomFilter := ℕ → Word

namespace BloomFilter

variable {words : ℕ} {f g : BloomFilter} {h h' : Word} {key : Word}

def firstHash (key : Word) : Word := bloomMix64 key

def secondHash (key : Word) : Word := bloomMix64 (key ^^^ 0x9e3779b97f4a7c15)

/-- `bit_index`; the number of words is a power of two. -/
def bitIndex (words : ℕ) (h : Word) : ℕ := (h >>> 6).toNat % words

def bitMask (h : Word) : Word := (1 : Word) <<< (h.toNat % 64)

/-- The `fetch_or` of `insert` for one of the two hashes. -/
def orWord (words : ℕ) (f : BloomFilter) (h : Word) : BloomFilter :=
  Function.update f (bitIndex words h) (f (bitIndex words h) ||| bitMask h)

def insert (words : ℕ) (f : BloomFilter) (key : Word) : BloomFilter :=
  orWord words (orWord words f (firstHash key)) (secondHash key)

def popcountWord (w : Word) : ℕ := (List.range 64).countP fun i => w.getLsbD i

def Marks (words : ℕ) (f : BloomFilter) (h : Word) : Prop :=
  (f (bitIndex words h)).getLsbD (h.toNat % 64) = true

def Contains (words : ℕ) (f : BloomFilter) (key : Word) : Prop :=
  Marks words f (firstHash key) ∧ Marks words f (secondHash key)

theorem getLsbD_bitMask (h : Word) (i : ℕ) :
    (bitMask h).getLsbD i = decide (i = h.toNat % 64) := by
  have hlt : h.toNat % 64 < 64 := Nat.mod_lt _ (by decide)
  have hone : ∀ k, (1 : Word).getLsbD k = decide (k = 0) := fun k => by
    rw [BitVec.ofNat_eq_ofNat, BitVec.getLsbD_one]
    simp
  rw [bitMask, BitVec.getLsbD_shiftLeft, hone, Bool.eq_iff_iff]
  simp only [Bool.and_eq_true, Bool.not_eq_true', decide_eq_true_eq, decide_eq_false_iff_not]
  omega

theorem marks_orWord_self (words : ℕ) (f : BloomFilter) (h : Word) :
    Marks words (orWord words f h) h := by
  rw [Marks, orWord, Function.update_self, BitVec.getLsbD_or, getLsbD_bitMask]
  simp

theorem Marks.orWord (hm : Marks words f h) (h' : Word) : Marks words (orWord words f h') h := by
  unfold Marks BloomFilter.orWord
  by_cases heq : bitIndex words h = bitIndex words h'
  · rw [heq, Function.update_self, BitVec.getLsbD_or, ← heq]
    unfold Marks at hm
    rw [hm, Bool.true_or]
  · rw [Function.update_of_ne heq]
    exact hm

theorem Contains.orWord (hc : Contains words f key) (h : Word) :
    Contains words (orWord words f h) key :=
  ⟨hc.1.orWord h, hc.2.orWord h⟩

theorem contains_insert_self (words : ℕ) (f : BloomFilter) (key : Word) :
    Contains words (insert words f key) key :=
  ⟨(marks_orWord_self words f _).orWord _, marks_orWord_self words _ _⟩

theorem Contains.insert (hc : Contains words f key) (key' : Word) :
    Contains words (insert words f key') key :=
  (hc.orWord _).orWord _

theorem orWord_of_marks (hm : Marks words f h) : orWord words f h = f := by
  refine Function.update_eq_self_iff.2 (BitVec.eq_of_getLsbD_eq fun i _ => ?_)
  rw [BitVec.getLsbD_or, getLsbD_bitMask]
  by_cases hi : i = h.toNat % 64
  · subst hi
    rw [hm, Bool.true_or]
  · simp [hi]

theorem insert_of_contains (hc : Contains words f key) : insert words f key = f := by
  rw [insert, orWord_of_marks hc.1, orWord_of_marks hc.2]

theorem Contains.not_disjoint (hwords : 0 < words) (hf : Contains words f key)
    (hg : Contains words g key) : ∃ i < words, f i &&& g i ≠ 0 := by
  refine ⟨bitIndex words (firstHash key), Nat.mod_lt _ hwords, fun hzero => ?_⟩
  have hbit := congrArg (fun w : Word => w.getLsbD ((firstHash key).toNat % 64)) hzero
  have hf₁ : (f (bitIndex words (firstHash key))).getLsbD ((firstHash key).toNat % 64) = true :=
    hf.1
  have hg₁ : (g (bitIndex words (firstHash key))).getLsbD ((firstHash key).toNat % 64) = true :=
    hg.1
  simp [BitVec.getLsbD_and, hf₁, hg₁] at hbit

end BloomFilter
