import ClangTM.TypedMemory

/-!
# The write set of NOrec for accesses of all types

`write_word_norec`, `read_word_norec` and the write-back of `commit` for a transaction that runs
alone, so that it finds the lock free. The write set has the newest entry first. A write replaces
the value of the newest entry of its address and its size, but not the type of that entry; it is
dropped if there is a newer entry of its address that is wider. Assertions are left out.

Addresses below `0x100000` or above 47 bits are skipped, and stores to the stack go to memory.
-/

namespace NOrec

open Serial TypedAddr

/-- The bytes of memory, and `write_set`. -/
structure Buffer where
  mem : BitVec 64 → BitVec 8
  writeSet : List (TypedAddr × Word) := []

/-- `write_word_norec`: the scan of the write set, if it finds an entry to stop at. -/
def scan (w : TypedAddr × Word) : List (TypedAddr × Word) → Option (List (TypedAddr × Word))
  | [] => none
  | e :: log =>
      if e.1.addr = w.1.addr ∧ e.1.type.size = w.1.type.size then some ((e.1, w.2) :: log)
      else if e.1.addr = w.1.addr ∧ w.1.type.size < e.1.type.size then some (e :: log)
      else (scan w log).map (e :: ·)

/-- `write_word_norec`; `onStack` is `isOnCurrentThreadStack`. -/
def writeWordNorec (onStack : BitVec 64 → Bool) (s : Buffer) (w : TypedAddr × Word) : Buffer :=
  if w.1.addr.toNat < 0x100000 || w.1.addr >>> 47 != 0 then s
  else if onStack w.1.addr then { s with mem := places.store s.mem w.1 w.2 }
  else { s with writeSet := (scan w s.writeSet).getD (w :: s.writeSet) }

def readWordNorec (onStack : BitVec 64 → Bool) (s : Buffer) (k : TypedAddr) : List (BitVec 8) :=
  ((((s.writeSet.lookup k).map fun v => wordBytes v k.type.size).or
    (interchanged s.writeSet k)).or (merged s.writeSet k)).getD
      (if k.addr.toNat < 0x100000 || onStack k.addr then wordBytes 0 k.type.size
        else places.load s.mem k)

/-- `commit`: the entries are written back, the oldest one first. -/
def writeBackAll (s : Buffer) : BitVec 64 → BitVec 8 := plain s.mem s.writeSet.reverse

def ofWrites (onStack : BitVec 64 → Bool) (m : BitVec 64 → BitVec 8)
    (ws : List (TypedAddr × Word)) : Buffer :=
  ws.foldl (writeWordNorec onStack) { mem := m }

/-- An address that is neither skipped nor on the stack. -/
def Tracked (onStack : BitVec 64 → Bool) (a : BitVec 64) : Prop :=
  0x100000 ≤ a.toNat ∧ a >>> 47 = 0 ∧ onStack a = false

variable {onStack : BitVec 64 → Bool} {m : BitVec 64 → BitVec 8} {s : Buffer} {k : TypedAddr}
  {ws log : List (TypedAddr × Word)} {w : TypedAddr × Word}

theorem scan_eq (h : places.Fits w.1 log) :
    (scan w log).getD (w :: log) = putFront w.1 w.2 log := by
  have hscan : scan w log =
      if (log.lookup w.1).isSome then some (overwrite w.1 w.2 log) else none := by
    induction log with
    | nil => rfl
    | cons e log ih =>
        rw [scan, lookup_cons_eq, overwrite]
        by_cases heq : w.1 = e.1
        · simp [heq]
        · have hne : e.1.addr ≠ w.1.addr := fun haddr =>
            heq (eq_of_fits h List.mem_cons_self (haddr ▸ e.1.addr_mem_bytes)).symm
          rw [if_neg fun hc => hne hc.1, if_neg fun hc => hne hc.1, if_neg heq,
            if_neg (Ne.symm heq), ih h.of_cons]
          split <;> rfl
  rw [hscan, putFront]
  split <;> rfl

theorem writeWordNorec_eq (hw : Tracked onStack w.1.addr) (h : places.Fits w.1 s.writeSet) :
    writeWordNorec onStack s w = { s with writeSet := putFront w.1 w.2 s.writeSet } := by
  rw [writeWordNorec, if_neg (by simp [hw.1, hw.2.1]), if_neg (by simp [hw.2.2]), scan_eq h]

theorem stands_ofWrites (h : Separate ws) (ht : ∀ w ∈ ws, Tracked onStack w.1.addr) :
    (ofWrites onStack m ws).mem = m ∧ Stands m ws (ofWrites onStack m ws).writeSet := by
  refine Stands.foldl (P := fun s => s.mem = m) (f := Buffer.writeSet) (s := { mem := m })
    (fun s w hw hmem hfits => ?_) rfl rfl h
  rw [writeWordNorec_eq (ht w hw) hfits]
  exact ⟨hmem, fun e he => (mem_putFront he).imp_left (congrArg Prod.fst),
    Places.writeAll_putFront hfits⟩

theorem readWordNorec_eq (hk : Tracked onStack k.addr) (h : places.Fits k s.writeSet) :
    readWordNorec onStack s k =
      ((s.writeSet.lookup k).map (places.val k)).getD (places.load s.mem k) := by
  unfold readWordNorec
  cases hlookup : s.writeSet.lookup k with
  | some v => rfl
  | none =>
      have htracked : ¬(k.addr.toNat < 0x100000 || onStack k.addr) = true := by
        simp [hk.1, hk.2.2]
      rw [interchanged_eq_none h hlookup, merged_eq_none h, if_neg htracked]
      rfl

end NOrec
