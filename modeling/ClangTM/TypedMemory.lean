import Mathlib.Data.List.Induction
import ClangTM.Bytes.Block
import ClangTM.Memory
import ClangTM.Serial.Places

/-!
# Typed accesses

What `write_impl` and `read_impl` of the C++ backends are called for: an address, together with
the type of the value there. Memory is made of bytes, a value is passed as a word of which the
type takes the low bytes, and what is read are the bytes of the value. Two accesses have a byte in
common, or they are apart; an entry of a redo log with the address of an access has the same type
as the access, if the accesses are equal or apart.
-/

/-- `ValueType`; the `DataType` of TSC-TM has the same values. -/
inductive ValueType
  | uint8
  | uint16
  | uint32
  | uint64
  | float
  | double
  | pointer
deriving DecidableEq

def ValueType.size : ValueType → ℕ
  | .uint8 => 1
  | .uint16 => 2
  | .uint32 | .float => 4
  | .uint64 | .double | .pointer => 8

def wordBytes (v : Word) (n : ℕ) : List (BitVec 8) :=
  (List.range n).map fun i => (v >>> (8 * i)).setWidth 8

def byteMask (n : ℕ) : Word := if 8 ≤ n then ~~~0 else (1 : Word) <<< (8 * n) - 1

theorem getLsbD_byteMask (n : ℕ) {j : ℕ} (hj : j < 64) :
    (byteMask n).getLsbD j = decide (j < 8 * n) := by
  unfold byteMask
  split
  · have hin : j < 8 * n := by omega
    rw [BitVec.getLsbD_not]
    simp [hj, hin]
  · next hn =>
      have hone : (1 : Word) <<< (8 * n) - 1 = BitVec.ofNat 64 (2 ^ (8 * n) - 1) := by
        have hpos : 0 < 2 ^ (8 * n) := Nat.two_pow_pos _
        refine BitVec.eq_of_toNat_eq ?_
        have hlt : 2 ^ (8 * n) < 2 ^ 64 := Nat.pow_lt_pow_right (by decide) (by omega)
        simp [BitVec.toNat_sub, Nat.shiftLeft_eq]
        omega
      rw [hone, getLsbD_lowMask (by omega)]

/-- The byte `i` of a word into which the first `n` bytes of another one have been merged. -/
theorem byte_merge (x v : Word) (n off : ℕ) {i : ℕ} (hi : i < 8) :
    ((x &&& ~~~(byteMask n <<< (8 * off)) ||| (v &&& byteMask n) <<< (8 * off)) >>>
        (8 * i)).setWidth 8 =
      if off ≤ i ∧ i < off + n then (v >>> (8 * (i - off))).setWidth 8
      else (x >>> (8 * i)).setWidth 8 := by
  refine BitVec.eq_of_getLsbD_eq fun j hj => ?_
  have hlt : 8 * i + j < 64 := by omega
  simp only [BitVec.getLsbD_setWidth, BitVec.getLsbD_ushiftRight, BitVec.getLsbD_or,
    BitVec.getLsbD_and, BitVec.getLsbD_not, BitVec.getLsbD_shiftLeft, hlt, hj, decide_true,
    Bool.true_and]
  by_cases hlo : off ≤ i
  · have hsub : 8 * i + j - 8 * off = 8 * (i - off) + j := by omega
    have hge : ¬8 * i + j < 8 * off := by omega
    rw [hsub, getLsbD_byteMask n (by omega)]
    by_cases hhi : i < off + n
    · have hin : 8 * (i - off) + j < 8 * n := by omega
      simp [hlo, hhi, hge, hin, hj]
    · have hout : ¬8 * (i - off) + j < 8 * n := by omega
      simp [hhi, hge, hout, hj]
  · have hshift : 8 * i + j < 8 * off := by omega
    simp [hlo, hshift, hj]

structure TypedAddr where
  addr : BitVec 64
  type : ValueType
deriving DecidableEq

namespace TypedAddr

open Serial

def bytes (k : TypedAddr) : List (BitVec 64) := Bytes.range k.addr k.type.size

def Apart (k k' : TypedAddr) : Prop := ∀ p ∈ k.bytes, p ∉ k'.bytes

instance (k k' : TypedAddr) : Decidable (k.Apart k') :=
  List.decidableBAll _ _

theorem Apart.symm {k k' : TypedAddr} (h : k.Apart k') : k'.Apart k :=
  fun p hp hp' => h p hp' hp

@[simp] theorem length_wordBytes (v : Word) (n : ℕ) : (wordBytes v n).length = n := by
  simp [wordBytes]

/-- Typed accesses to a memory of bytes. -/
def places : Places (BitVec 64 → BitVec 8) TypedAddr Word (List (BitVec 8)) where
  load m k := Bytes.load m k.addr k.type.size
  store m k v := Bytes.store m k.addr (wordBytes v k.type.size)
  val k v := wordBytes v k.type.size
  Apart := Apart
  load_store m k v := by
    have hsize : k.type.size ≤ 2 ^ 64 := by cases k.type <;> decide
    have hload := @Bytes.load_store _ _ m k.addr (wordBytes v k.type.size)
    rw [length_wordBytes] at hload
    exact hload hsize
  load_store_of_apart m k k' v h := by
    refine Bytes.load_congr fun p hp => Bytes.store_of_notMem fun hp' => h p ?_ hp
    rwa [length_wordBytes] at hp'
  store_store m k v v' := Bytes.store_store (by simp)
  store_comm m k k' v v' h := by
    refine Bytes.store_comm ?_
    rw [length_wordBytes, length_wordBytes]
    exact h

variable {k k' : TypedAddr} {log : List (TypedAddr × Word)}

theorem addr_mem_bytes (k : TypedAddr) : k.addr ∈ k.bytes := by
  obtain ⟨n, hn⟩ : ∃ n, k.type.size = n + 1 := by cases k.type <;> exact ⟨_, rfl⟩
  rw [bytes, hn]
  exact List.mem_cons_self

theorem mem_bytes {p : BitVec 64} (h : k.addr.toNat ≤ p.toNat)
    (h' : p.toNat < k.addr.toNat + k.type.size) : p ∈ k.bytes := by
  refine Bytes.mem_range.2 ⟨p.toNat - k.addr.toNat, by omega, BitVec.eq_of_toNat_eq ?_⟩
  have := p.isLt
  rw [BitVec.toNat_add, BitVec.toNat_ofNat]
  omega

/-- An entry that has the first byte of a place that fits is an entry of this place. -/
theorem eq_of_fits (h : places.Fits k log) {e : TypedAddr × Word} (he : e ∈ log)
    (haddr : k.addr ∈ e.1.bytes) : e.1 = k :=
  (h e he).resolve_right fun hapart => hapart k.addr haddr k.addr_mem_bytes

theorem find_addr (h : places.Fits k log) :
    log.find? (fun e => e.1.addr == k.addr) = (log.lookup k).map (Prod.mk k) := by
  induction log with
  | nil => rfl
  | cons e log ih =>
      rw [List.find?_cons, lookup_cons_eq]
      by_cases heq : k = e.1
      · simp [heq]
      · have hne : e.1.addr ≠ k.addr := fun haddr =>
          heq (eq_of_fits h List.mem_cons_self (haddr ▸ e.1.addr_mem_bytes)).symm
        rw [if_neg heq, beq_eq_false_iff_ne.2 hne]
        exact ih h.of_cons

/-- The byte `i` of a store. -/
theorem store_apply (m : BitVec 64 → BitVec 8) (k : TypedAddr) (v : Word) {i : ℕ}
    (hi : i < k.type.size) :
    places.store m k v (k.addr + BitVec.ofNat 64 i) = (v >>> (8 * i)).setWidth 8 := by
  have hload : places.load (places.store m k v) k = wordBytes v k.type.size :=
    places.load_store m k v
  rw [show places.load _ k = Bytes.load _ k.addr k.type.size from rfl, Bytes.load_eq_map, wordBytes,
    List.map_inj_left] at hload
  exact hload i (List.mem_range.2 hi)

def Aligned (k : TypedAddr) : Prop := k.addr.toNat % k.type.size = 0

instance (k : TypedAddr) : Decidable k.Aligned := inferInstanceAs (Decidable (_ = _))

/-- The read of NOrec, TL2 and TSC-TM: an entry with the address and a type that the requested one
can be taken from. -/
def interchanged (es : List (TypedAddr × Word)) (k : TypedAddr) : Option (List (BitVec 8)) :=
  (es.find? fun e => e.1.addr == k.addr &&
      [(8, 8), (8, 4), (8, 2), (8, 1), (4, 2), (4, 1), (2, 1)].contains
        (e.1.type.size, k.type.size)).map fun e => wordBytes e.2 k.type.size

/-- The read of NOrec, TL2 and TSC-TM: eight entries of one byte. -/
def merged (es : List (TypedAddr × Word)) (k : TypedAddr) : Option (List (BitVec 8)) :=
  if k.type.size = 8 then
    (List.range 8).mapM fun i =>
      (es.lookup ⟨k.addr + BitVec.ofNat 64 i, .uint8⟩).map fun v => v.setWidth 8
  else none

theorem ne_of_lookup (hk : log.lookup k = none) : ∀ e ∈ log, e.1 ≠ k := fun e he heq => by
  have := List.lookup_eq_none_iff.1 hk e he
  simp [heq] at this

theorem interchanged_eq_none (h : places.Fits k log) (hk : log.lookup k = none) :
    interchanged log k = none := by
  refine Option.map_eq_none_iff.2 (List.find?_eq_none.2 fun e he hcond => ?_)
  simp only [Bool.and_eq_true, beq_iff_eq] at hcond
  exact ne_of_lookup hk e he (eq_of_fits h he (hcond.1 ▸ e.1.addr_mem_bytes))

theorem merged_eq_none (h : places.Fits k log) : merged log k = none := by
  unfold merged
  split
  · next hsize =>
      have hfirst : log.lookup ⟨k.addr + BitVec.ofNat 64 0, .uint8⟩ = none := by
        refine Option.eq_none_iff_forall_ne_some.2 fun v hv => ?_
        have he := mem_of_lookup hv
        have heq := eq_of_fits h he (by simp [TypedAddr.bytes, Bytes.range, ValueType.size])
        rw [← heq] at hsize
        cases hsize
      rw [List.range_succ_eq_map, List.mapM_cons, hfirst]
      rfl
  · rfl

def plain (m : BitVec 64 → BitVec 8) (ws : List (TypedAddr × Word)) : BitVec 64 → BitVec 8 :=
  ws.foldl (fun m w => places.store m w.1 w.2) m

/-- Any two accesses are equal or apart. -/
def Separate (ws : List (TypedAddr × Word)) : Prop := ∀ w ∈ ws, places.Fits w.1 ws

instance (ws : List (TypedAddr × Word)) : Decidable (places.Fits k ws) :=
  @List.decidableBAll _ _ (fun w => inferInstanceAs (Decidable (w.1 = k ∨ w.1.Apart k))) ws

instance (ws : List (TypedAddr × Word)) : Decidable (Separate ws) :=
  List.decidableBAll _ _

theorem Separate.of_append {ws : List (TypedAddr × Word)} {w : TypedAddr × Word}
    (h : Separate (ws ++ [w])) : Separate ws ∧ places.Fits w.1 ws :=
  ⟨fun u hu v hv => h u (List.mem_append_left _ hu) v (List.mem_append_left _ hv),
    fun v hv => h w (by simp) v (List.mem_append_left _ hv)⟩

/-- The log has the places of the writes, and leaves the memory that they leave. -/
structure Stands (m : BitVec 64 → BitVec 8) (ws log : List (TypedAddr × Word)) : Prop where
  keys : ∀ e ∈ log, ∃ w ∈ ws, w.1 = e.1
  mem : places.writeAll m log = plain m ws

namespace Stands

variable {m : BitVec 64 → BitVec 8} {ws log' : List (TypedAddr × Word)} {w : TypedAddr × Word}

theorem fits (h : Stands m ws log) (hk : places.Fits k ws) : places.Fits k log := by
  intro e he
  obtain ⟨w, hw, heq⟩ := h.keys e he
  exact heq ▸ hk w hw

theorem load (h : Stands m ws log) (hk : places.Fits k ws) :
    places.load (plain m ws) k = ((log.lookup k).map (places.val k)).getD (places.load m k) := by
  rw [← h.mem, Places.load_writeAll (h.fits hk)]

theorem append (h : Stands m ws log) (hkeys : ∀ e ∈ log', e.1 = w.1 ∨ e ∈ log)
    (hmem : places.writeAll m log' = places.store (places.writeAll m log) w.1 w.2) :
    Stands m (ws ++ [w]) log' := by
  constructor
  · intro e he
    rcases hkeys e he with heq | he
    · exact ⟨w, by simp, heq.symm⟩
    · obtain ⟨u, hu, heq⟩ := h.keys e he
      exact ⟨u, List.mem_append_left _ hu, heq⟩
  · rw [hmem, h.mem, plain, plain, List.foldl_append]
    rfl

/-- A write set stands for the writes that have been made one after another. -/
theorem foldl {S : Type} {P : S → Prop} {f : S → List (TypedAddr × Word)}
    {write : S → TypedAddr × Word → S}
    (hwrite : ∀ s, ∀ w ∈ ws, P s → places.Fits w.1 (f s) →
      P (write s w) ∧ (∀ e ∈ f (write s w), e.1 = w.1 ∨ e ∈ f s) ∧
        places.writeAll m (f (write s w)) = places.store (places.writeAll m (f s)) w.1 w.2)
    {s : S} (hs : P s) (hnil : f s = []) (h : Separate ws) :
    P (ws.foldl write s) ∧ Stands m ws (f (ws.foldl write s)) := by
  induction ws using List.reverseRecOn with
  | nil => exact ⟨hs, by simp [hnil], by simp [hnil, plain, Places.writeAll]⟩
  | append_singleton ws w ih =>
      obtain ⟨hws, hw⟩ := h.of_append
      obtain ⟨hP, hstands⟩ := ih (fun s u hu => hwrite s u (List.mem_append_left _ hu)) hws
      obtain ⟨hP', hkeys, hmem⟩ := hwrite _ w (by simp) hP (hstands.fits hw)
      rw [List.foldl_append]
      exact ⟨hP', hstands.append hkeys hmem⟩

end Stands

end TypedAddr
