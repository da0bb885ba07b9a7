import ClangTM.TypedMemory

/-!
# The write log of SwissTM

`write_impl`, `read_impl` and the write-back of `commit`, for accesses of all types by a
transaction that runs alone. The log has the newest entry first; `write_log_index` leads to the
newest entry of an address, and the write lock of an ownership record to the oldest entry of the
record. Addresses are far below the end of the address space, and sums of them are taken without
overflow.

A write with another type than the indexed entry is dropped if it is not wider than the entry. As
long as accesses are equal or apart there is no such write.
-/

namespace SwissTM

open Serial TypedAddr

abbrev Log := List (TypedAddr × Word)

/-- `get_orec` of `get_word_addr`, as an index into `orec_table`. -/
def orec (a : BitVec 64) : BitVec 64 := ((a &&& ~~~7) >>> 4) &&& (0x400000 - 1)

/-- The entry that `write_log_index` has for an address. -/
def indexed (log : Log) (a : BitVec 64) : Option (TypedAddr × Word) :=
  log.find? fun e => e.1.addr == a

def writeImpl (log : Log) (w : TypedAddr × Word) : Log :=
  match indexed log w.1.addr with
  | none => w :: log
  | some e =>
      if e.1.type = w.1.type then overwrite w.1 w.2 log
      else if w.1.type.size ≤ e.1.type.size then log
      else w :: log

/-- A value of the type of an entry can be read from it: the types are the same, or one is a
pointer and the other an integer of that size. -/
def readable (t : ValueType) (e : TypedAddr × Word) : Bool :=
  e.1.type == t || (t == .uint64 && e.1.type == .pointer) || (t == .pointer && e.1.type == .uint64)

/-- `read_impl`: the entry that an own write lock leads to. -/
def locked (log : Log) (a : BitVec 64) : Option (TypedAddr × Word) :=
  (log.reverse.find? fun e => orec e.1.addr == orec a).filter fun e => e.1.addr == a

/-- `read_impl`: the oldest entry that has all the bytes. -/
def covering (log : Log) (k : TypedAddr) : Option (TypedAddr × Word) :=
  log.reverse.find? fun e => e.1.addr.toNat ≤ k.addr.toNat &&
    k.addr.toNat + k.type.size ≤ e.1.addr.toNat + e.1.type.size

def readImpl (m : BitVec 64 → BitVec 8) (log : Log) (k : TypedAddr) : List (BitVec 8) :=
  match ((indexed log k.addr).filter (readable k.type)).or
      ((locked log k.addr).filter (readable k.type)) with
  | some e => wordBytes e.2 k.type.size
  | none =>
      match covering log k with
      | some e => wordBytes (e.2 >>> (8 * (k.addr.toNat - e.1.addr.toNat))) k.type.size
      | none => places.load m k

/-- `commit`: the entries are written back, the oldest one first. -/
def commit (m : BitVec 64 → BitVec 8) (log : Log) : BitVec 64 → BitVec 8 := plain m log.reverse

def ofWrites (ws : List (TypedAddr × Word)) : Log := ws.foldl writeImpl []

variable {m : BitVec 64 → BitVec 8} {log : Log} {k : TypedAddr} {ws : List (TypedAddr × Word)}

theorem writeImpl_eq {w : TypedAddr × Word} (h : places.Fits w.1 log) :
    writeImpl log w = putFront w.1 w.2 log := by
  rw [writeImpl, indexed, find_addr h, putFront]
  cases log.lookup w.1 <;> simp

theorem stands_ofWrites (h : Separate ws) : Stands m ws (ofWrites ws) := by
  refine (Stands.foldl (P := fun _ => True) (f := id) (fun log w _ _ hfits => ?_) trivial rfl h).2
  replace hfits : places.Fits w.1 log := hfits
  refine ⟨trivial, fun e he => ?_, ?_⟩
  · exact (mem_putFront (writeImpl_eq hfits ▸ he)).imp_left (congrArg Prod.fst)
  · rw [writeImpl_eq hfits]
    exact Places.writeAll_putFront hfits

theorem readImpl_eq (h : places.Fits k log) :
    readImpl m log k = ((log.lookup k).map (places.val k)).getD (places.load m k) := by
  unfold readImpl
  rw [indexed, find_addr h]
  cases hk : log.lookup k with
  | some v =>
      have hread : readable k.type (k, v) = true := by simp [readable]
      rw [Option.map_some, Option.filter_some, if_pos hread]
      rfl
  | none =>
      have hnone : ∀ e ∈ log, k.addr ∉ e.1.bytes := fun e he hmem => by
        have := List.lookup_eq_none_iff.1 hk e he
        simp [eq_of_fits h he hmem] at this
      have hlocked : locked log k.addr = none := by
        refine Option.filter_eq_none_iff.2 fun e he haddr => ?_
        have he := List.mem_reverse.1 (List.mem_of_find?_eq_some he)
        exact hnone e he (beq_iff_eq.1 haddr ▸ e.1.addr_mem_bytes)
      have hcover : covering log k = none := by
        refine List.find?_eq_none.2 fun e he hcond => hnone e (List.mem_reverse.1 he) ?_
        simp only [Bool.and_eq_true, decide_eq_true_eq] at hcond
        have hpos : 0 < k.type.size := by cases k.type <;> decide
        exact mem_bytes hcond.1 (by omega)
      rw [hlocked, hcover]
      rfl

end SwissTM
