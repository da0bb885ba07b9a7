import Mathlib.Data.List.Pairwise
import ClangTM.TL2.Guard
import ClangTM.TypedMemory

/-!
# The write set of TSC-TM

`write_impl`, `read_impl` and the write-back of `commit`, for accesses of all types by a
transaction that runs alone, so that it finds all guards free. Addresses are those of the
transactional memory, far below the end of the address space, and sums of them are taken without
overflow.

The write set has one entry an address, which takes over the type of the last write to it; a read
looks for its own type, for a larger one, and for entries around it, and a read of eight bytes also
for eight single bytes. That is right as long as accesses are equal or apart. A store of
one byte into a word that has been written leaves the other bytes of the word unwritten.
-/

namespace TscTM

open Serial TypedAddr

structure WriteSet where
  entries : List (TypedAddr × Word) := []
  bloomFilter : Word := 0

def bloomSetBytes (filter : Word) (a : BitVec 64) : Word :=
  (List.range 8).foldl
    (fun f off => f ||| (1 : Word) <<< TL2.bloomHash (a + BitVec.ofNat 64 off)) filter

def bloomMightContainByte (filter : Word) (a : BitVec 64) : Bool :=
  (filter >>> TL2.bloomHash a) &&& 1 != 0

/-- The entry with the address gets another type and value, or a new entry is added. -/
def retype (k : TypedAddr) (v : Word) : List (TypedAddr × Word) → List (TypedAddr × Word)
  | [] => [(k, v)]
  | e :: es => if e.1.addr = k.addr then (k, v) :: es else e :: retype k v es

namespace WriteSet

def writeImpl (s : WriteSet) (w : TypedAddr × Word) : WriteSet where
  entries := retype w.1 w.2 s.entries
  bloomFilter :=
    if s.entries.any fun e => e.1.addr == w.1.addr then s.bloomFilter
    else bloomSetBytes s.bloomFilter w.1.addr

def newValue (e : TypedAddr × Word) : Word := (e.2.setWidth (8 * e.1.type.size)).setWidth 64

/-- `read_impl`: a larger entry that starts at another address. -/
def covering (es : List (TypedAddr × Word)) (k : TypedAddr) : Option (List (BitVec 8)) :=
  (es.find? fun e => e.1.addr != k.addr && k.type.size < e.1.type.size &&
      e.1.addr.toNat ≤ k.addr.toNat && k.addr.toNat < e.1.addr.toNat + e.1.type.size).map fun e =>
    wordBytes (newValue e >>> (8 * (k.addr.toNat - e.1.addr.toNat))) k.type.size

def readImpl (m : BitVec 64 → BitVec 8) (s : WriteSet) (k : TypedAddr) : List (BitVec 8) :=
  if bloomMightContainByte s.bloomFilter k.addr then
    ((((s.entries.lookup k).map fun v => wordBytes v k.type.size).or
      (interchanged s.entries k)).or (covering s.entries k)).or (merged s.entries k) |>.getD
        (places.load m k)
  else places.load m k

/-- `commit`: the entries are sorted by their address and written back. -/
def commit (m : BitVec 64 → BitVec 8) (s : WriteSet) : BitVec 64 → BitVec 8 :=
  plain m (s.entries.insertionSort fun e e' => e.1.addr.toNat ≤ e'.1.addr.toNat)

def ofWrites (ws : List (TypedAddr × Word)) : WriteSet := ws.foldl writeImpl {}

end WriteSet

section Retype

variable {m : BitVec 64 → BitVec 8} {k : TypedAddr} {v : Word} {es : List (TypedAddr × Word)}

theorem mem_retype {e : TypedAddr × Word} (h : e ∈ retype k v es) : e = (k, v) ∨ e ∈ es := by
  induction es with
  | nil => exact .inl (by simpa [retype] using h)
  | cons u es ih =>
      rw [retype] at h
      split at h
      · exact (List.mem_cons.1 h).imp_right (List.mem_cons_of_mem u)
      · rcases List.mem_cons.1 h with rfl | h
        · exact .inr List.mem_cons_self
        · exact (ih h).imp_right (List.mem_cons_of_mem u)

theorem writeAll_retype (h : places.Fits k es) :
    places.writeAll m (retype k v es) = places.store (places.writeAll m es) k v := by
  induction es with
  | nil => rfl
  | cons e es ih =>
      rw [retype]
      split
      · next haddr =>
          obtain rfl := eq_of_fits h List.mem_cons_self (haddr ▸ e.1.addr_mem_bytes)
          exact (places.store_store _ _ _ _).symm
      · next hne =>
          have hapart := (h e List.mem_cons_self).resolve_left fun heq => hne (heq ▸ rfl)
          have hcomm := places.store_comm (places.writeAll m es) e.1 k e.2 v hapart
          exact (congrArg (places.store · e.1 e.2) (ih h.of_cons)).trans hcomm.symm

theorem pairwise_retype (h : places.Fits k es)
    (hes : es.Pairwise fun e e' => e.1.Apart e'.1) :
    (retype k v es).Pairwise fun e e' => e.1.Apart e'.1 := by
  induction es with
  | nil => exact List.pairwise_singleton _ _
  | cons e es ih =>
      rw [List.pairwise_cons] at hes
      rw [retype]
      split
      · next haddr =>
          obtain rfl := eq_of_fits h List.mem_cons_self (haddr ▸ e.1.addr_mem_bytes)
          exact List.pairwise_cons.2 hes
      · next hne =>
          refine List.pairwise_cons.2 ⟨fun u hu => ?_, ih h.of_cons hes.2⟩
          rcases mem_retype hu with rfl | hu
          · exact (h e List.mem_cons_self).resolve_left fun heq => hne (heq ▸ rfl)
          · exact hes.1 u hu

end Retype

theorem bloomMightContainByte_eq (f : Word) (a : BitVec 64) :
    bloomMightContainByte f a = f.getLsbD (TL2.bloomHash a) := by
  rw [bloomMightContainByte, TL2.and_one_bne, BitVec.getLsbD_ushiftRight, Nat.add_zero]

/-- The entries are apart, and the filter has the bits of their addresses. -/
structure WriteSet.WF (s : WriteSet) : Prop where
  apart : s.entries.Pairwise fun e e' => e.1.Apart e'.1
  filtered : ∀ e ∈ s.entries, bloomMightContainByte s.bloomFilter e.1.addr = true

namespace WriteSet

variable {m : BitVec 64 → BitVec 8} {s : WriteSet} {k : TypedAddr} {ws : List (TypedAddr × Word)}

theorem WF.writeImpl (h : s.WF) {w : TypedAddr × Word} (hw : places.Fits w.1 s.entries) :
    (s.writeImpl w).WF := by
  refine ⟨pairwise_retype hw h.apart, fun e he => ?_⟩
  unfold WriteSet.writeImpl
  simp only
  split
  · next hany =>
      rcases mem_retype he with rfl | he
      · obtain ⟨u, hu, haddr⟩ := List.any_eq_true.1 hany
        rw [beq_iff_eq] at haddr
        exact haddr ▸ h.filtered u hu
      · exact h.filtered e he
  · rw [bloomMightContainByte_eq, bloomSetBytes, TL2.getLsbD_foldl_or, Bool.or_eq_true]
    rcases mem_retype he with rfl | he
    · have hlt : TL2.bloomHash w.1.addr < 64 := Nat.mod_lt _ (by decide)
      exact .inr (List.any_eq_true.2 ⟨0, by decide, by simp [hlt]⟩)
    · rw [← bloomMightContainByte_eq]
      exact .inl (h.filtered e he)

theorem stands_ofWrites (h : Separate ws) :
    (ofWrites ws).WF ∧ Stands m ws (ofWrites ws).entries := by
  refine Stands.foldl (P := WF) (f := entries) (fun s w _ hwf hfits => ?_) ⟨.nil, by simp⟩ rfl h
  exact ⟨hwf.writeImpl hfits, fun _ he => (mem_retype he).imp_left (congrArg Prod.fst),
    writeAll_retype hfits⟩

theorem readImpl_eq (hwf : s.WF) (h : places.Fits k s.entries) :
    readImpl m s k =
      ((s.entries.lookup k).map (places.val k)).getD (places.load m k) := by
  unfold readImpl
  cases hk : s.entries.lookup k with
  | some v =>
      rw [if_pos (hwf.filtered _ (mem_of_lookup hk))]
      rfl
  | none =>
      have hcover : covering s.entries k = none := by
        refine Option.map_eq_none_iff.2 (List.find?_eq_none.2 fun e he hcond => ?_)
        simp only [Bool.and_eq_true, decide_eq_true_eq] at hcond
        exact ne_of_lookup hk e he (eq_of_fits h he (mem_bytes hcond.1.2 hcond.2))
      rw [interchanged_eq_none h hk, hcover, merged_eq_none h]
      simp

theorem readImpl_ofWrites (h : Separate ws) (hk : places.Fits k ws) :
    readImpl m (ofWrites ws) k = places.load (plain m ws) k := by
  obtain ⟨hwf, hstands⟩ := stands_ofWrites (m := m) h
  rw [readImpl_eq hwf (hstands.fits hk), hstands.load hk]

theorem commit_ofWrites (h : Separate ws) : commit m (ofWrites ws) = plain m ws := by
  obtain ⟨hwf, hstands⟩ := stands_ofWrites (m := m) h
  have : Std.Symm fun e e' : TypedAddr × Word => e.1.Apart e'.1 := ⟨fun _ _ => Apart.symm⟩
  have hforall : ∀ e ∈ (ofWrites ws).entries, ∀ e' ∈ (ofWrites ws).entries,
      e = e' ∨ places.Apart e.1 e'.1 := fun e he e' he' =>
    or_iff_not_imp_left.2 (hwf.apart.forall he he')
  rw [commit, plain, List.foldl_eq_foldr_reverse, ← hstands.mem]
  refine (Places.writeAll_perm ?_ hforall).symm
  exact ((List.reverse_perm _).trans (List.perm_insertionSort _ _)).symm

end WriteSet

end TscTM
