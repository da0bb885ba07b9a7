import ClangTM.TypedMemory

/-!
# The write set of write-back with encounter-time locking, for accesses of all types

The merge functions of `tm_log_merge.hpp`, and the parts of `read_word_etl`, `write_word_etl` and
`commit` that use them, for a transaction that runs alone, so that it finds every lock free or its
own. An entry of the write set holds the bytes of an aligned word that have been written, with one
bit for each of them.

A read takes its value from the entry if all its bytes are there, and from memory if not: it loses
the bytes that are there if only some of them are.
-/

namespace TinySTM.Wbetl

open Serial TypedAddr

def alignDown8 (a : BitVec 64) : BitVec 64 := a &&& ~~~7

def byteOffset (a : BitVec 64) : ℕ := (a &&& 7).toNat

/-- The bits of `n` bytes from the offset on. -/
def bytesFrom (n off : ℕ) : BitVec 8 := (((1 : BitVec 32) <<< n - 1) <<< off).setWidth 8

/-- The bytes of an aligned word that have been written. -/
structure Slot where
  value : Word := 0
  valid : BitVec 8 := 0

def bitmapWrite (e : Slot) (w : TypedAddr × Word) : Slot :=
  let n := w.1.type.size
  let off := byteOffset w.1.addr
  { value := e.value &&& ~~~(byteMask n <<< (8 * off)) ||| (w.2 &&& byteMask n) <<< (8 * off)
    valid := e.valid ||| bytesFrom n off }

def bitmapRead (e : Slot) (k : TypedAddr) : Option Word :=
  let n := k.type.size
  let off := byteOffset k.addr
  if e.valid &&& bytesFrom n off = bytesFrom n off then
    some (e.value >>> (8 * off) &&& byteMask n)
  else none

abbrev WriteSet := List (BitVec 64 × Slot)

def writeWordEtl (s : WriteSet) (w : TypedAddr × Word) : WriteSet :=
  putBack (alignDown8 w.1.addr) (bitmapWrite ((s.lookup (alignDown8 w.1.addr)).getD {}) w) s

def readWordEtl (m : BitVec 64 → BitVec 8) (s : WriteSet) (k : TypedAddr) : List (BitVec 8) :=
  (((s.lookup (alignDown8 k.addr)).bind (bitmapRead · k)).map (wordBytes · k.type.size)).getD
    (places.load m k)

/-- `commit`: the write-back of the first `n` bytes of an entry. -/
def writeBackSlot (m : BitVec 64 → BitVec 8) (e : BitVec 64 × Slot) (n : ℕ) :
    BitVec 64 → BitVec 8 :=
  (List.range n).foldl (fun m i =>
    if e.2.valid.getLsbD i then
      Function.update m (e.1 + BitVec.ofNat 64 i) ((e.2.value >>> (8 * i)).setWidth 8)
    else m) m

def writeBackBytes (m : BitVec 64 → BitVec 8) (s : WriteSet) : BitVec 64 → BitVec 8 :=
  s.foldl (writeBackSlot · · 8) m

def ofWrites (ws : List (TypedAddr × Word)) : WriteSet := ws.foldl writeWordEtl []

/-- A byte of an entry, if it has been written. -/
def Slot.byte (e : Slot) (i : ℕ) : Option (BitVec 8) :=
  if e.valid.getLsbD i then some ((e.value >>> (8 * i)).setWidth 8) else none

theorem byteOffset_eq (a : BitVec 64) : byteOffset a = a.toNat % 8 := by
  rw [byteOffset, BitVec.toNat_and]
  exact Nat.and_two_pow_sub_one_eq_mod a.toNat 3

theorem byteOffset_lt (a : BitVec 64) : byteOffset a < 8 := by
  rw [byteOffset_eq]
  exact Nat.mod_lt _ (by decide)

theorem alignDown8_toNat (a : BitVec 64) : (alignDown8 a).toNat = a.toNat / 8 * 8 := by
  have h : alignDown8 a = (a >>> 3) <<< 3 := by
    refine BitVec.eq_of_getLsbD_eq fun i hi => ?_
    have hseven : (7 : Word).getLsbD i = decide (i < 3) := getLsbD_lowMask (k := 3) (by decide) i
    rw [alignDown8, BitVec.getLsbD_and, BitVec.getLsbD_not, hseven, BitVec.getLsbD_shiftLeft,
      BitVec.getLsbD_ushiftRight]
    by_cases hlow : i < 3
    · simp [hlow]
    · simp [hlow, hi, show 3 + (i - 3) = i by omega]
  rw [h]
  simp [Nat.shiftRight_eq_div_pow, Nat.shiftLeft_eq]
  omega

theorem getLsbD_bytesFrom {n off i : ℕ} (hn : n ≤ 8) (hoff : off < 8) (hi : i < 8) :
    (bytesFrom n off).getLsbD i = decide (off ≤ i ∧ i < off + n) := by
  have h : ∀ n < 9, ∀ off < 8, ∀ i < 8,
      (bytesFrom n off).getLsbD i = decide (off ≤ i ∧ i < off + n) := by
    decide +kernel
  exact h n (by omega) off hoff i hi

theorem byte_bitmapWrite (e : Slot) (w : TypedAddr × Word) {i : ℕ} (hi : i < 8) :
    (bitmapWrite e w).byte i =
      if byteOffset w.1.addr ≤ i ∧ i < byteOffset w.1.addr + w.1.type.size then
        some ((w.2 >>> (8 * (i - byteOffset w.1.addr))).setWidth 8)
      else e.byte i := by
  have hn : w.1.type.size ≤ 8 := by cases w.1.type <;> decide
  rw [Slot.byte, bitmapWrite, BitVec.getLsbD_or, getLsbD_bytesFrom hn (byteOffset_lt _) hi,
    byte_merge _ _ _ _ hi]
  by_cases h : byteOffset w.1.addr ≤ i ∧ i < byteOffset w.1.addr + w.1.type.size
  · simp [h]
  · simp [h, Slot.byte]

/-- What the transaction has written to the byte. -/
def byteAt (s : WriteSet) (p : BitVec 64) : Option (BitVec 8) :=
  (s.lookup (alignDown8 p)).bind (·.byte (byteOffset p))

variable {m : BitVec 64 → BitVec 8} {s : WriteSet} {k : TypedAddr} {w : TypedAddr × Word}
  {ws : List (TypedAddr × Word)} {p : BitVec 64} {i : ℕ}

theorem alignDown8_eq_iff (a b : BitVec 64) :
    alignDown8 a = alignDown8 b ↔ a.toNat / 8 = b.toNat / 8 := by
  rw [← BitVec.toNat_inj, alignDown8_toNat, alignDown8_toNat]
  omega

/-- A naturally aligned value is in one word. -/
theorem aligned_offset (hk : k.Aligned) (hi : i < k.type.size) :
    alignDown8 (k.addr + BitVec.ofNat 64 i) = alignDown8 k.addr ∧
      byteOffset (k.addr + BitVec.ofNat 64 i) = byteOffset k.addr + i ∧
      byteOffset k.addr + i < 8 := by
  have hlt := k.addr.isLt
  have hk : k.addr.toNat % k.type.size = 0 := hk
  have hsize : k.type.size = 1 ∨ k.type.size = 2 ∨ k.type.size = 4 ∨ k.type.size = 8 := by
    cases k.type <;> decide
  have hadd : (k.addr + BitVec.ofNat 64 i).toNat = k.addr.toNat + i := by
    rw [BitVec.toNat_add, BitVec.toNat_ofNat]
    rcases hsize with h | h | h | h <;> rw [h] at hk hi <;> omega
  rw [alignDown8_eq_iff, byteOffset_eq, byteOffset_eq, hadd]
  rcases hsize with h | h | h | h <;> rw [h] at hk hi <;> omega

theorem byteAt_aligned (s : WriteSet) (hk : k.Aligned) (hi : i < k.type.size) :
    byteAt s (k.addr + BitVec.ofNat 64 i) =
      (s.lookup (alignDown8 k.addr)).bind (·.byte (byteOffset k.addr + i)) := by
  obtain ⟨halign, hoff, -⟩ := aligned_offset hk hi
  rw [byteAt, halign, hoff]

theorem byteAt_written (s : WriteSet) (hw : w.1.Aligned) (hi : i < w.1.type.size) :
    byteAt (writeWordEtl s w) (w.1.addr + BitVec.ofNat 64 i) =
      some ((w.2 >>> (8 * i)).setWidth 8) := by
  rw [byteAt_aligned _ hw hi, writeWordEtl, lookup_putBack, if_pos rfl, Option.bind_some,
    byte_bitmapWrite _ _ (aligned_offset hw hi).2.2, if_pos (by omega), Nat.add_sub_cancel_left]

theorem byteAt_of_notMem (s : WriteSet) (hp : p ∉ w.1.bytes) :
    byteAt (writeWordEtl s w) p = byteAt s p := by
  rw [byteAt, writeWordEtl, lookup_putBack, byteAt]
  split
  · next heq =>
      rw [Option.bind_some, byte_bitmapWrite _ _ (byteOffset_lt p), if_neg fun h => hp ?_, heq]
      · cases s.lookup (alignDown8 w.1.addr) with
        | none => simp [Slot.byte]
        | some e => rfl
      · rw [alignDown8_eq_iff] at heq
        rw [byteOffset_eq, byteOffset_eq] at h
        exact mem_bytes (by omega) (by omega)
  · rfl

def overlay (m : BitVec 64 → BitVec 8) (s : WriteSet) (p : BitVec 64) : BitVec 8 :=
  (byteAt s p).getD (m p)

theorem overlay_writeWordEtl (m : BitVec 64 → BitVec 8) (s : WriteSet) (hw : w.1.Aligned) :
    overlay m (writeWordEtl s w) = places.store (overlay m s) w.1 w.2 := by
  funext p
  rw [overlay]
  by_cases hp : p ∈ w.1.bytes
  · obtain ⟨i, hi, rfl⟩ := Bytes.mem_range.1 hp
    rw [byteAt_written s hw hi, store_apply _ _ _ hi, Option.getD_some]
  · rw [byteAt_of_notMem s hp]
    refine (Bytes.store_of_notMem (m := overlay m s) ?_).symm
    rwa [length_wordBytes]

/-- The write set after writes: what it holds, and that its keys are distinct addresses of
words. -/
theorem ofWrites_spec (m : BitVec 64 → BitVec 8) (hws : ∀ w ∈ ws, w.1.Aligned) :
    overlay m (ofWrites ws) = plain m ws ∧
      (∀ p, (byteAt (ofWrites ws) p).isSome = true ↔ ∃ w ∈ ws, p ∈ w.1.bytes) ∧
      ((ofWrites ws).map Prod.fst).Nodup ∧ ∀ a ∈ (ofWrites ws).map Prod.fst, a.toNat % 8 = 0 := by
  induction ws using List.reverseRecOn with
  | nil => exact ⟨rfl, by simp [byteAt, ofWrites], .nil, by simp [ofWrites]⟩
  | append_singleton ws w ih =>
      have hw := hws w (by simp)
      obtain ⟨hmem, hsome, hnodup, hkeys⟩ := ih fun u hu => hws u (List.mem_append_left _ hu)
      rw [ofWrites, List.foldl_append, plain, List.foldl_append]
      refine ⟨(overlay_writeWordEtl m _ hw).trans (by rw [← ofWrites, hmem]; rfl), fun p => ?_,
        nodup_putBack hnodup, fun a ha => ?_⟩
      · show (byteAt (writeWordEtl (ofWrites ws) w) p).isSome = true ↔ _
        by_cases hp : p ∈ w.1.bytes
        · obtain ⟨i, hi, rfl⟩ := Bytes.mem_range.1 hp
          simp only [byteAt_written _ hw hi, Option.isSome_some, true_iff]
          exact ⟨w, by simp, hp⟩
        · rw [byteAt_of_notMem _ hp, hsome]
          simp [or_and_right, exists_or, hp]
      · rcases mem_map_fst_putBack.1 ha with rfl | ha
        · rw [alignDown8_toNat]
          omega
        · exact hkeys a ha

theorem writeBackSlot_apply (m : BitVec 64 → BitVec 8) {e : BitVec 64 × Slot}
    (he : e.1.toNat % 8 = 0) {n : ℕ} (hn : n ≤ 8) (p : BitVec 64) :
    writeBackSlot m e n p =
      if alignDown8 p = e.1 ∧ byteOffset p < n then (e.2.byte (byteOffset p)).getD (m p)
      else m p := by
  have hlt := e.1.isLt
  have halign : alignDown8 p = e.1 ↔ p.toNat / 8 * 8 = e.1.toNat := by
    rw [← BitVec.toNat_inj, alignDown8_toNat]
  induction n with
  | zero => simp [writeBackSlot]
  | succ n ih =>
      have hadd : p = e.1 + BitVec.ofNat 64 n ↔ alignDown8 p = e.1 ∧ byteOffset p = n := by
        rw [← BitVec.toNat_inj, BitVec.toNat_add, BitVec.toNat_ofNat, halign, byteOffset_eq]
        omega
      rw [writeBackSlot, List.range_succ, List.foldl_append, ← writeBackSlot]
      show (if e.2.valid.getLsbD n then Function.update (writeBackSlot m e n) _ _
        else writeBackSlot m e n) p = _
      by_cases hp : p = e.1 + BitVec.ofNat 64 n
      · obtain ⟨hpe, rfl⟩ := hadd.1 hp
        rw [Slot.byte, if_pos (⟨hpe, by omega⟩ : _ ∧ byteOffset p < _ + 1)]
        split
        · rw [← hp, Function.update_self, Option.getD_some]
        · rw [ih (by omega), if_neg (by omega), Option.getD_none]
      · have hiff : alignDown8 p = e.1 ∧ byteOffset p < n + 1 ↔
            alignDown8 p = e.1 ∧ byteOffset p < n := by
          refine and_congr_right fun hpe => ?_
          have : byteOffset p ≠ n := fun hoff => hp (hadd.2 ⟨hpe, hoff⟩)
          omega
        rw [if_congr hiff rfl rfl, ← ih (by omega)]
        split
        · rw [Function.update_of_ne hp]
        · rfl

theorem writeBackBytes_eq (m : BitVec 64 → BitVec 8) (hnodup : (s.map Prod.fst).Nodup)
    (hkeys : ∀ a ∈ s.map Prod.fst, a.toNat % 8 = 0) : writeBackBytes m s = overlay m s := by
  induction s generalizing m with
  | nil => rfl
  | cons e s ih =>
      rw [List.map_cons, List.nodup_cons] at hnodup
      have hstep : writeBackBytes m (e :: s) = writeBackBytes (writeBackSlot m e 8) s := rfl
      rw [hstep, ih _ hnodup.2 fun a ha => hkeys a (List.mem_cons_of_mem _ ha)]
      funext p
      rw [overlay, overlay, byteAt, byteAt, lookup_cons_eq,
        writeBackSlot_apply m (hkeys e.1 List.mem_cons_self) (Nat.le_refl 8)]
      by_cases hp : alignDown8 p = e.1
      · have hnone : s.lookup (alignDown8 p) = none := by
          refine Option.eq_none_iff_forall_ne_some.2 fun x hx => hnodup.1 ?_
          exact List.mem_map.2 ⟨_, mem_of_lookup hx, hp⟩
        rw [hnone, if_pos ⟨hp, byteOffset_lt p⟩, if_pos hp]
        rfl
      · rw [if_neg hp, if_neg fun h => hp h.1]

theorem isSome_byte {e : Slot} {i : ℕ} : (e.byte i).isSome = e.valid.getLsbD i := by
  rw [Slot.byte]
  split <;> simp [*]

/-- The bytes of a value that `bitmap_read` extracts. -/
theorem bitmapRead_eq (e : Slot) (hk : k.Aligned) :
    (bitmapRead e k).map (wordBytes · k.type.size) =
      if ∀ i < k.type.size, e.valid.getLsbD (byteOffset k.addr + i) = true then
        some ((List.range k.type.size).map fun i =>
          (e.value >>> (8 * (byteOffset k.addr + i))).setWidth 8)
      else none := by
  have hlt := fun i hi => (aligned_offset (i := i) hk hi).2.2
  have hn : k.type.size ≤ 8 := by cases k.type <;> decide
  have hoff := byteOffset_lt k.addr
  have hcond : e.valid &&& bytesFrom k.type.size (byteOffset k.addr) =
      bytesFrom k.type.size (byteOffset k.addr) ↔
      ∀ i < k.type.size, e.valid.getLsbD (byteOffset k.addr + i) = true := by
    constructor
    · intro h i hi
      have hbit := congrArg (BitVec.getLsbD · (byteOffset k.addr + i)) h
      simp only [BitVec.getLsbD_and, getLsbD_bytesFrom hn hoff (hlt i hi)] at hbit
      simpa [hi] using hbit
    · intro h
      refine BitVec.eq_of_getLsbD_eq fun j hj => ?_
      rw [BitVec.getLsbD_and, getLsbD_bytesFrom hn hoff hj]
      by_cases hin : byteOffset k.addr ≤ j ∧ j < byteOffset k.addr + k.type.size
      · have hbit := h (j - byteOffset k.addr) (by omega)
        rw [Nat.add_sub_cancel' hin.1] at hbit
        simp [hbit]
      · simp [hin]
  rw [bitmapRead]
  by_cases h : ∀ i < k.type.size, e.valid.getLsbD (byteOffset k.addr + i) = true
  · rw [if_pos (hcond.2 h), if_pos h, Option.map_some, wordBytes]
    refine congrArg some (List.map_congr_left fun i hi => BitVec.eq_of_getLsbD_eq fun j hj => ?_)
    have hi := List.mem_range.1 hi
    have := hlt i hi
    simp only [BitVec.getLsbD_setWidth, BitVec.getLsbD_ushiftRight, BitVec.getLsbD_and,
      getLsbD_byteMask k.type.size (show 8 * i + j < 64 by omega)]
    simp [show 8 * i + j < 8 * k.type.size by omega, Nat.mul_add, Nat.add_assoc]
  · rw [if_neg fun hc => h (hcond.1 hc), if_neg h]
    rfl

/-- The transaction has written all the bytes of the access, or none of them. -/
def Whole (ws : List (TypedAddr × Word)) (k : TypedAddr) : Prop :=
  (∀ i < k.type.size, ∃ w ∈ ws, k.addr + BitVec.ofNat 64 i ∈ w.1.bytes) ∨
    ∀ i < k.type.size, ∀ w ∈ ws, k.addr + BitVec.ofNat 64 i ∉ w.1.bytes

theorem readWordEtl_eq (m : BitVec 64 → BitVec 8) (s : WriteSet) (hk : k.Aligned)
    (h : (∀ i < k.type.size, (byteAt s (k.addr + BitVec.ofNat 64 i)).isSome = true) ∨
      ∀ i < k.type.size, (byteAt s (k.addr + BitVec.ofNat 64 i)).isSome = false) :
    readWordEtl m s k = places.load (overlay m s) k := by
  have hpos : 0 < k.type.size := by cases k.type <;> decide
  rw [readWordEtl]
  rcases h with hall | hnone
  · have hfirst := hall 0 hpos
    rw [byteAt_aligned s hk hpos] at hfirst
    cases he : s.lookup (alignDown8 k.addr) with
    | none => simp [he] at hfirst
    | some e =>
        have hbyte : ∀ i < k.type.size, e.valid.getLsbD (byteOffset k.addr + i) = true := by
          intro i hi
          have := hall i hi
          rwa [byteAt_aligned s hk hi, he, Option.bind_some, isSome_byte] at this
        rw [Option.bind_some, bitmapRead_eq e hk, if_pos hbyte, Option.getD_some]
        refine Eq.trans ?_ (Bytes.load_eq_map _ _ _).symm
        refine List.map_congr_left fun i hi => ?_
        have hi := List.mem_range.1 hi
        rw [overlay, byteAt_aligned s hk hi, he, Option.bind_some, Slot.byte, if_pos (hbyte i hi)]
        rfl
  · have hload : places.load (overlay m s) k = places.load m k := by
      refine Bytes.load_congr fun p hp => ?_
      obtain ⟨i, hi, rfl⟩ := Bytes.mem_range.1 hp
      rw [overlay, Option.not_isSome_iff_eq_none.1 (Bool.eq_false_iff.1 (hnone i hi)),
        Option.getD_none]
    have hfirst := hnone 0 hpos
    rw [byteAt_aligned s hk hpos] at hfirst
    rw [hload]
    cases he : s.lookup (alignDown8 k.addr) with
    | none => rfl
    | some e =>
        rw [he, Option.bind_some, isSome_byte] at hfirst
        rw [Option.bind_some, bitmapRead_eq e hk, if_neg fun h => ?_, Option.getD_none]
        rw [h 0 hpos] at hfirst
        cases hfirst

end TinySTM.Wbetl
