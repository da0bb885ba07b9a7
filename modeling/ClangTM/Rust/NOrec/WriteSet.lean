import ClangTM.Rust.TypedValue

/-!
# The write set of the Rust NOrec

The write set of `norec/src/lib.rs` for accesses of all widths, with one transaction that runs
alone: the clock stands still, so that `read_word` ends in its first round and the commit goes
through. An entry is found by the address it begins at. In a write set the newest entry comes
first, and `applyWriteSet` performs the oldest one first.

An entry is not found by an address inside it, a longer one may be lost to a shorter raw write,
and an entry of raw bytes is not read back as a value of its size.
-/

namespace Rust.NOrec

open Serial TypedValue

/-- `byte_size_of_tv`, a `u8`. -/
def byteSizeOfTv : TypedValue → ℕ
  | .scalar w _ => w.bytes
  | .bytes b => b.length % 256

def tvToU64 : TypedValue → Option Word
  | .scalar w v => some (v &&& byteMask w.bytes)
  | .bytes b => if b ≠ [] ∧ b.length ≤ 8 then some (leWord b) else none

def tvFromU64Like (v : Word) : TypedValue → TypedValue
  | .scalar w _ => .scalar w v
  | .bytes b => .bytes ((wordBytes v 8).take b.length)

abbrev WriteSet := List Write

/-- What `write_word` makes of the entry it finds. -/
def renew (old : TypedValue) (w : Width) (v : Word) : TypedValue :=
  if w.bytes < byteSizeOfTv old then
    match tvToU64 old, tvToU64 (.scalar w v) with
    | some cur, some nv => tvFromU64Like (splice nv cur w.bytes) old
    | _, _ => .scalar w v
  else .scalar w v

def writeWord (es : WriteSet) (a : Addr) (w : Width) (v : Word) : WriteSet :=
  putFront a (((es.lookup a).map fun old => renew old w v).getD (.scalar w v)) es

def writeRawBytes (es : WriteSet) (a : Addr) (src : List (BitVec 8)) : WriteSet :=
  (a, .bytes src) :: es.filter fun e => e.1 ≠ a

/-- `read_word`, where it takes from memory the bytes it does not find. -/
def readWord (m : Addr → BitVec 8) (es : WriteSet) (a : Addr) (w : Width) :
    Option (List (BitVec 8)) :=
  let val := leWord (Bytes.load m a w.bytes)
  match es.lookup a with
  | none => fromTyped w (.scalar w val)
  | some tv =>
      if byteSizeOfTv tv = w.bytes then fromTyped w tv
      else
        match tvToU64 tv with
        | none => fromTyped w (.scalar w val)
        | some u =>
            fromTyped w (.scalar w (if w.bytes < byteSizeOfTv tv then u &&& byteMask w.bytes
              else splice u val (byteSizeOfTv tv)))

def readRawBytes (m : Addr → BitVec 8) (es : WriteSet) (a : Addr) : ℕ → Option (List (BitVec 8))
  | 0 => some []
  | n + 1 => do
      let byte ← readWord m es a .w8
      let rest ← readRawBytes m es (a + 1) n
      some (byte ++ rest)

def applyWriteSet (m : Addr → BitVec 8) (es : WriteSet) : Addr → BitVec 8 :=
  es.foldr (fun e m => Bytes.store m e.1 e.2.cells) m

def write (es : WriteSet) (w : Write) : WriteSet :=
  match w.2 with
  | .scalar width v => writeWord es w.1 width v
  | .bytes src => writeRawBytes es w.1 src

def ofWrites (ws : List Write) : WriteSet := ws.foldl write []

/-- The entries of other addresses have none of these bytes. -/
def lone (es : WriteSet) (a : Addr) (n : ℕ) : Bool :=
  es.all fun e => e.1 == a || (Bytes.range a n).all fun p =>
    !(Bytes.range e.1 e.2.cells.length).contains p

/-- A typed write finds no entry, or one of at most eight bytes and no other with a byte of it;
a raw write finds no longer entry. -/
def writable (es : WriteSet) (w : Write) : Bool :=
  match es.lookup w.1, w.2 with
  | none, _ => true
  | some old, .scalar width _ => old.cells.length ≤ 8 && lone es w.1 width.bytes
  | some old, .bytes src => old.cells.length ≤ src.length

/-- A read finds no entry, or one of at most eight bytes that is not raw or has another size, and
no other one with a byte of it. -/
def readable (es : WriteSet) (a : Addr) (w : Width) : Bool :=
  lone es a w.bytes &&
    match es.lookup a with
    | none => true
    | some (.scalar _ _) => true
    | some (.bytes b) => b.length ≤ 8 && b.length != w.bytes

/-- All writes find the write set as `writable` says. -/
def allWritable (es : WriteSet) : List Write → Bool
  | [] => true
  | w :: ws => writable es w && allWritable (write es w) ws

section Cells

variable {tv : TypedValue} {w : Width} {v u : Word}

theorem length_cells (h : tv.cells.length ≤ 8) : byteSizeOfTv tv = tv.cells.length := by
  cases tv with
  | scalar w v => simp [byteSizeOfTv, cells]
  | bytes b => exact Nat.mod_eq_of_lt (Nat.lt_of_le_of_lt h (by decide))

theorem wordBytes_mask (v : Word) {n : ℕ} (hn : n ≤ 8) :
    wordBytes (v &&& byteMask n) n = wordBytes v n := by
  have h := wordBytes_splice v 0#64 (Nat.le_refl n) hn
  rwa [splice, BitVec.zero_and, BitVec.zero_or, List.drop_eq_nil_of_le (by simp),
    List.append_nil] at h

theorem tvToU64_cells (hu : tvToU64 tv = some u) : wordBytes u tv.cells.length = tv.cells := by
  cases tv with
  | scalar w v =>
      obtain rfl := Option.some.inj hu
      rw [cells, TypedAddr.length_wordBytes, wordBytes_mask v w.bytes_le]
  | bytes b =>
      rw [tvToU64] at hu
      split at hu
      · next hb =>
          obtain rfl := Option.some.inj hu
          exact wordBytes_leWord hb.2
      · cases hu

theorem tvToU64_eq_none (h : tv.cells.length ≤ 8) (hu : tvToU64 tv = none) : tv.cells = [] := by
  cases tv with
  | scalar w v => cases hu
  | bytes b =>
      rw [tvToU64, ite_eq_right_iff] at hu
      by_contra hne
      cases hu ⟨hne, h⟩

theorem cells_renew (h : tv.cells.length ≤ 8) :
    (renew tv w v).cells = wordBytes v w.bytes ++ tv.cells.drop w.bytes := by
  unfold renew
  rw [length_cells h]
  split
  · next hlt =>
      cases hu : tvToU64 tv with
      | none =>
          rw [tvToU64_eq_none h hu] at hlt
          cases hlt
      | some cur =>
          have hlike : ∀ x : Word, (tvFromU64Like x tv).cells = wordBytes x tv.cells.length := by
            intro x
            cases tv with
            | scalar w' v' => simp [tvFromU64Like, cells]
            | bytes b => exact take_wordBytes x h
          refine (hlike (splice (v &&& byteMask w.bytes) cur w.bytes)).trans ?_
          rw [wordBytes_splice _ _ (Nat.le_of_lt hlt) h, wordBytes_mask v w.bytes_le,
            tvToU64_cells hu]
  · next hge => rw [List.drop_eq_nil_of_le (Nat.le_of_not_lt hge), List.append_nil, cells]

end Cells

variable {m : Addr → BitVec 8} {es : WriteSet} {a p : Addr} {n : ℕ} {e : Write}

theorem notMem_of_lone (h : lone es a n = true) (he : e ∈ es) (hne : e.1 ≠ a)
    (hp : p ∈ Bytes.range a n) : p ∉ Bytes.range e.1 e.2.cells.length := by
  have h := List.all_eq_true.1 h e he
  simp only [Bool.or_eq_true, beq_iff_eq, hne, false_or] at h
  simpa using List.all_eq_true.1 h p hp

theorem lone_of_cons (h : lone (e :: es) a n = true) : lone es a n = true :=
  (Bool.and_eq_true_iff.1 h).2

theorem apply_writeWord {w : Width} {v : Word} (h : writable es (a, .scalar w v) = true) :
    applyWriteSet m (writeWord es a w v) =
      Bytes.store (applyWriteSet m es) a (wordBytes v w.bytes) := by
  unfold writeWord putFront
  cases hold : es.lookup a with
  | none => rfl
  | some old =>
      obtain ⟨hlen, hlone⟩ : old.cells.length ≤ 8 ∧ lone es a w.bytes = true := by
        simpa [writable, hold] using h
      clear h
      simp only [Option.isSome_some, if_true, Option.map_some, Option.getD_some]
      induction es with
      | nil => cases hold
      | cons e es ih =>
          rw [lookup_cons_eq] at hold
          rw [overwrite]
          by_cases heq : e.1 = a
          · rw [if_pos heq.symm] at hold
            obtain rfl := Option.some.inj hold
            subst heq
            rw [if_pos rfl]
            have := w.bytes_le
            refine Eq.trans ?_ (Bytes.store_store_drop (by omega) (by simp; omega)).symm
            exact congrArg _ ((cells_renew hlen).trans (by simp))
          · rw [if_neg (Ne.symm heq)] at hold
            rw [if_neg heq]
            refine (congrArg (Bytes.store · _ _) (ih hold (lone_of_cons hlone))).trans ?_
            refine Bytes.store_comm fun p hp => ?_
            rw [TypedAddr.length_wordBytes] at hp
            exact notMem_of_lone hlone List.mem_cons_self heq hp

theorem apply_writeRawBytes {src : List (BitVec 8)} (hnodup : (es.map Prod.fst).Nodup)
    (h : writable es (a, .bytes src) = true) :
    applyWriteSet m (writeRawBytes es a src) = Bytes.store (applyWriteSet m es) a src := by
  funext p
  refine Bytes.store_congr ?_
  by_cases hp : p ∈ Bytes.range a src.length
  · exact .inl hp
  · have hle : ∀ e ∈ es, e.1 = a → p ∉ Bytes.range e.1 e.2.cells.length := by
      rintro e he rfl hp'
      have hlen : e.2.cells.length ≤ src.length := by
        simpa [writable, lookup_of_mem hnodup he] using h
      obtain ⟨i, hi, rfl⟩ := Bytes.mem_range.1 hp'
      exact hp (Bytes.mem_range.2 ⟨i, Nat.lt_of_lt_of_le hi hlen, rfl⟩)
    clear h hnodup
    refine .inr ?_
    induction es with
    | nil => rfl
    | cons e es ih =>
        have ih := ih fun e' he' => hle e' (List.mem_cons_of_mem e he')
        by_cases heq : e.1 = a
        · rw [List.filter_cons_of_neg (by simpa using heq), ih]
          exact (Bytes.store_of_notMem (hle e List.mem_cons_self heq)).symm
        · rw [List.filter_cons_of_pos (by simpa using heq)]
          exact Bytes.store_congr (.inr ih)

theorem nodup_write (w : Write) (h : (es.map Prod.fst).Nodup) :
    ((write es w).map Prod.fst).Nodup := by
  unfold write
  split
  · exact nodup_putFront h
  · refine List.nodup_cons.2 ⟨fun hmem => ?_, h.sublist (List.filter_sublist.map _)⟩
    obtain ⟨e, he, heq⟩ := List.mem_map.1 hmem
    simpa [heq] using (List.mem_filter.1 he).2

/-- Whatever is written, the write set stands for the memory it is going to leave. -/
theorem apply_writes {ws : List Write} (hnodup : (es.map Prod.fst).Nodup)
    (h : allWritable es ws = true) :
    ((ws.foldl write es).map Prod.fst).Nodup ∧
      applyWriteSet m (ws.foldl write es) = performed (applyWriteSet m es) ws := by
  induction ws generalizing es with
  | nil => exact ⟨hnodup, rfl⟩
  | cons w ws ih =>
      obtain ⟨hw, hws⟩ := Bool.and_eq_true_iff.1 h
      have hstep : applyWriteSet m (write es w) =
          Bytes.store (applyWriteSet m es) w.1 w.2.cells := by
        obtain ⟨a, tv⟩ := w
        cases tv with
        | scalar width v => exact apply_writeWord hw
        | bytes src => exact apply_writeRawBytes hnodup hw
      have hih := ih (nodup_write w hnodup) hws
      rwa [hstep] at hih

/-- What the entries leave in a block that only the entry of its address reaches into. -/
theorem load_apply (hnodup : (es.map Prod.fst).Nodup) (h : lone es a n = true) :
    Bytes.load (applyWriteSet m es) a n =
      Bytes.load (Bytes.store m a (((es.lookup a).map cells).getD [])) a n := by
  refine Bytes.load_congr fun p hp => ?_
  induction es with
  | nil => rfl
  | cons e es ih =>
      have ih := ih (List.nodup_cons.1 hnodup).2 (lone_of_cons h)
      rw [lookup_cons_eq]
      by_cases heq : a = e.1
      · subst heq
        have hnone : es.lookup e.1 = none := by
          refine List.lookup_eq_none_iff.2 fun e' he' => bne_iff_ne.2 fun heq => ?_
          exact (List.nodup_cons.1 hnodup).1 (heq ▸ List.mem_map_of_mem he')
        rw [hnone] at ih
        rw [if_pos rfl]
        exact Bytes.store_congr (.inr ih)
      · rw [if_neg heq, ← ih]
        exact Bytes.store_of_notMem (notMem_of_lone h List.mem_cons_self (Ne.symm heq) hp)

theorem readWord_eq {w : Width} (hnodup : (es.map Prod.fst).Nodup)
    (h : readable es a w = true) :
    readWord m es a w = some (Bytes.load (applyWriteSet m es) a w.bytes) := by
  obtain ⟨hlone, hentry⟩ := Bool.and_eq_true_iff.1 h
  have hmem : ∀ n ≤ 8, wordBytes (leWord (Bytes.load m a n)) n = Bytes.load m a n := by
    intro n hn
    have hbytes := @wordBytes_leWord (Bytes.load m a n)
    rw [Bytes.length_load] at hbytes
    exact hbytes hn
  have hof : ∀ v, fromTyped w (.scalar w v) = some (wordBytes v w.bytes) := fun v => if_pos rfl
  rw [load_apply hnodup hlone]
  unfold readWord
  have hw := w.bytes_le
  cases hold : es.lookup a with
  | none => exact (hof _).trans (congrArg some (hmem _ hw))
  | some tv =>
      have hlen : tv.cells.length ≤ 8 := by
        cases tv with
        | scalar w' v => simpa [cells] using w'.bytes_le
        | bytes b =>
            rw [hold] at hentry
            exact of_decide_eq_true (Bool.and_eq_true_iff.1 hentry).1
      rw [Option.map_some, Option.getD_some, Bytes.load_store_take (by omega) (by omega)]
      dsimp only
      rw [length_cells hlen]
      split
      · next heq =>
          cases tv with
          | scalar w' v =>
              have hwidth : w' = w := by
                rw [cells, TypedAddr.length_wordBytes] at heq
                cases w' <;> cases w <;> first | rfl | cases heq
              subst hwidth
              rw [hof]
              simp [cells, List.take_of_length_le, List.drop_eq_nil_of_le]
          | bytes b =>
              rw [hold] at hentry
              exact absurd heq (bne_iff_ne.1 (Bool.and_eq_true_iff.1 hentry).2)
      · next hne =>
          cases hu : tvToU64 tv with
          | none =>
              rw [tvToU64_eq_none hlen hu]
              exact (hof _).trans (congrArg some ((hmem _ hw).trans (by simp)))
          | some u =>
              refine (hof _).trans (congrArg some ?_)
              split
              · next hlt =>
                  have hle := Nat.le_of_lt hlt
                  rw [wordBytes_mask u hw, ← take_wordBytes u hle, tvToU64_cells hu,
                    List.drop_eq_nil_of_le (by simpa using hle), List.append_nil]
              · next hge =>
                  rw [wordBytes_splice _ _ (Nat.le_of_not_lt hge) hw, tvToU64_cells hu, hmem _ hw,
                    List.take_of_length_le (Nat.le_of_not_lt hge)]

theorem readRawBytes_eq (hnodup : (es.map Prod.fst).Nodup)
    (h : ∀ p ∈ Bytes.range a n, readable es p .w8 = true) :
    readRawBytes m es a n = some (Bytes.load (applyWriteSet m es) a n) := by
  induction n generalizing a with
  | zero => rfl
  | succ n ih =>
      have hrest := ih fun p hp => h p (List.mem_cons_of_mem a hp)
      rw [readRawBytes, readWord_eq hnodup (h a List.mem_cons_self), hrest]
      rfl

def wordAndHalf : List Write :=
  [(8, .scalar .w64 0x0807060504030201), (8, .scalar .w32 0xddccbbaa), (32, .bytes [1, 2, 3])]

end Rust.NOrec
