import ClangTM.TL2.Basic

/-!
# Guards and the Bloom filter

A guard is read as a lock bit and a version; storing a version keeps it as long as it is
below `2 ^ 63`. The Bloom filter never misses a word that was written, so that looking a
word up through it is looking it up in the write set.
-/

namespace TL2

open Serial

theorem and_one_bne (w : Word) : (w &&& 1 != 0) = w.getLsbD 0 := by
  have hbit : w &&& 1 = if w.getLsbD 0 = true then 1 else 0 := by
    refine BitVec.eq_of_getLsbD_eq fun i hi => ?_
    rw [BitVec.getLsbD_and, show (1 : Word) = 1#64 from rfl, BitVec.getLsbD_one]
    by_cases hw : w.getLsbD 0 = true
    · rw [if_pos hw, BitVec.getLsbD_one]
      cases i with
      | zero => rw [hw, Bool.true_and]
      | succ i => simp
    · rw [if_neg hw]
      cases i with
      | zero =>
          rw [Bool.not_eq_true] at hw
          rw [hw, Bool.false_and]
          rfl
      | succ i => simp
  rw [hbit]
  cases w.getLsbD 0 <;> rfl

theorem isLocked_eq (g : Word) : isLocked g = g.getLsbD 0 := and_one_bne g

theorem getLsbD_lockMask (i : ℕ) : lockMask.getLsbD i = decide (i = 0) := by
  rw [lockMask, show (1 : Word) = 1#64 from rfl, BitVec.getLsbD_one]
  simp

theorem getLsbD_not_lockMask (i : ℕ) :
    (~~~lockMask).getLsbD i = (decide (i < 64) && decide (0 < i)) := by
  rw [BitVec.getLsbD_not, getLsbD_lockMask]
  cases i <;> simp

theorem getLsbD_guardVersion (g : Word) (i : ℕ) :
    (guardVersion g).getLsbD i = g.getLsbD (i + 1) := by
  rw [guardVersion, BitVec.getLsbD_ushiftRight, BitVec.getLsbD_and, getLsbD_not_lockMask,
    Nat.add_comm 1 i]
  by_cases h : i + 1 < 64
  · simp [h]
  · rw [BitVec.getLsbD_of_ge _ _ (Nat.not_lt.1 h), Bool.false_and]

@[simp] theorem isLocked_lock (g : Word) : isLocked (g ||| lockMask) = true := by
  rw [isLocked_eq, BitVec.getLsbD_or, getLsbD_lockMask]
  simp

@[simp] theorem isLocked_unlock (g : Word) : isLocked (g &&& ~~~lockMask) = false := by
  rw [isLocked_eq, BitVec.getLsbD_and, getLsbD_not_lockMask]
  simp

@[simp] theorem isLocked_withVersion (n : Word) : isLocked (withVersion n) = false :=
  isLocked_unlock _

@[simp] theorem guardVersion_lock (g : Word) : guardVersion (g ||| lockMask) = guardVersion g := by
  refine BitVec.eq_of_getLsbD_eq fun i _ => ?_
  simp [getLsbD_guardVersion, getLsbD_lockMask]

@[simp] theorem guardVersion_unlock (g : Word) :
    guardVersion (g &&& ~~~lockMask) = guardVersion g := by
  refine BitVec.eq_of_getLsbD_eq fun i _ => ?_
  rw [getLsbD_guardVersion, getLsbD_guardVersion, BitVec.getLsbD_and, getLsbD_not_lockMask]
  by_cases h : i + 1 < 64
  · simp [h]
  · rw [BitVec.getLsbD_of_ge _ _ (Nat.not_lt.1 h), Bool.false_and]

theorem guardVersion_withVersion {n : Word} (hn : n.toNat < 2 ^ 63) :
    guardVersion (withVersion n) = n := by
  rw [withVersion, guardVersion_unlock]
  refine BitVec.eq_of_getLsbD_eq fun i hi => ?_
  rw [getLsbD_guardVersion, BitVec.getLsbD_shiftLeft]
  by_cases h : i + 1 < 64
  · simp [h]
  · obtain rfl : i = 63 := by omega
    exact (Nat.testBit_lt_two_pow hn).symm

theorem bloomMightContain_eq (f : Word) (a : CellAddr) :
    bloomMightContain f a = f.getLsbD (bloomHash a.val) := by
  rw [bloomMightContain, and_one_bne, BitVec.getLsbD_ushiftRight, Nat.add_zero]

theorem getLsbD_foldl_or (g : ℕ → Word) (l : List ℕ) (f : Word) (i : ℕ) :
    (l.foldl (fun f n => f ||| g n) f).getLsbD i =
      (f.getLsbD i || l.any fun n => (g n).getLsbD i) := by
  induction l generalizing f with
  | nil => simp
  | cons n l ih => rw [List.foldl_cons, ih, BitVec.getLsbD_or, List.any_cons, Bool.or_assoc]

theorem bloomMightContain_set_of (f : Word) (a b : CellAddr)
    (h : bloomMightContain f b = true) : bloomMightContain (bloomSet f a) b = true := by
  rw [bloomMightContain_eq] at h ⊢
  rw [bloomSet, getLsbD_foldl_or, h, Bool.true_or]

theorem bloomMightContain_set_self (f : Word) (a : CellAddr) :
    bloomMightContain (bloomSet f a) a = true := by
  have hlt : bloomHash a.val < 64 := Nat.mod_lt _ (by decide)
  rw [bloomMightContain_eq, bloomSet, getLsbD_foldl_or, Bool.or_eq_true]
  refine .inr (List.any_eq_true.2 ⟨0, by decide, ?_⟩)
  simp [hlt]

/-- The filter has the bits of all words of the write set. -/
def Filtered (f : Word) (ws : List (CellAddr × Word)) : Prop :=
  ∀ a, (ws.lookup a).isSome = true → bloomMightContain f a = true

theorem Tx.find_eq {x : Tx} (h : Filtered x.bloomFilter x.writeSet) (a : CellAddr) :
    x.find a = x.writeSet.lookup a := by
  unfold Tx.find
  split
  · rfl
  · next hno =>
      cases hw : x.writeSet.lookup a with
      | none => rfl
      | some v => exact absurd (h a (by simp [hw])) hno

theorem Filtered.write {f : Word} {ws : List (CellAddr × Word)} (h : Filtered f ws)
    (a : CellAddr) (v : Word) :
    Filtered (if (ws.lookup a).isSome then f else bloomSet f a) (putBack a v ws) := by
  intro b hb
  rw [lookup_putBack] at hb
  split
  · next ha =>
      by_cases hba : b = a
      · exact h b (hba ▸ ha)
      · exact h b (by simpa [hba] using hb)
  · by_cases hba : b = a
    · exact hba ▸ bloomMightContain_set_self f b
    · exact bloomMightContain_set_of f a b (h b (by simpa [hba] using hb))

def reads (rs : List ReadSetEntry) : List (CellAddr × ℕ) :=
  rs.map fun r => (r.dataAddr, r.observedVersion.toNat)

theorem reads_append (rs : List ReadSetEntry) (r : ReadSetEntry) :
    reads (rs ++ [r]) = reads rs ++ [(r.dataAddr, r.observedVersion.toNat)] := by
  simp [reads]

/-- The guards of the write set are held, or belong to an entry of the list. -/
def Covered (ws : List (CellAddr × Word)) (hl : List GuardIdx) (rest : List (CellAddr × Word)) :
    Prop :=
  ∀ w ∈ ws, getGuardIdx w.1 ∈ hl ∨ w ∈ rest

namespace Covered

variable {ws rest : List (CellAddr × Word)} {hl : List GuardIdx}

theorem skip (h : Covered ws hl rest) :
    Covered ws hl (rest.dropWhile fun e => getGuardIdx e.1 ∈ hl) := by
  intro w hw
  rcases h w hw with hheld | hrest
  · exact .inl hheld
  · rw [← List.takeWhile_append_dropWhile (p := fun e => decide (getGuardIdx e.1 ∈ hl))
      (l := rest)] at hrest
    rcases List.mem_append.1 hrest with htake | hdrop
    · exact .inl (by simpa using List.all_eq_true.1 List.all_takeWhile w htake)
    · exact .inr hdrop

theorem lock {e : CellAddr × Word} (h : Covered ws hl (e :: rest)) :
    Covered ws (hl ++ [getGuardIdx e.1]) rest := by
  intro w hw
  rcases h w hw with hw | hw
  · exact .inl (List.mem_append_left _ hw)
  · rcases List.mem_cons.1 hw with rfl | hw
    · exact .inl (List.mem_append_right _ List.mem_cons_self)
    · exact .inr hw

end Covered

end TL2
